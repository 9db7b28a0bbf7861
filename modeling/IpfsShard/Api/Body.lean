import IpfsShard.Lib.JsonText

/-! The body of a request, read as JSON when it has ended. Each chunk is decoded when it comes: a
character of which one chunk has the first bytes and the next one the others is lost. -/

namespace IpfsShard.Api

open Utf8

inductive Event (ε : Type*) where
  | data (chunk : List UInt8)
  | ended
  | error (err : ε)

inductive Rejection (ε : Type*) where
  | syntaxError
  | request (err : ε)

variable {ν ε : Type*}

/-- The listeners of a request with the body so far: `none` while the promise is pending. -/
def listen (toNumber : List Char → ν) (body : List Char) :
    List (Event ε) → Option (Except (Rejection ε) (Json.Value ν))
  | [] => none
  | .data chunk :: events => listen toNumber (body ++ decode chunk) events
  | .ended :: _ =>
    match Json.parse toNumber body with
    | some value => some (.ok value)
    | none => some (.error .syntaxError)
  | .error err :: _ => some (.error (.request err))

def parseJsonBody (toNumber : List Char → ν) (events : List (Event ε)) :
    Option (Except (Rejection ε) (Json.Value ν)) := listen toNumber [] events

def arriving (chunks : List (List UInt8)) : List (Event ε) := chunks.map .data ++ [.ended]

variable (toNumber : List Char → ν)

theorem listen_arriving (chunks : List (List UInt8)) (body : List Char) :
    listen toNumber body (arriving chunks : List (Event ε)) =
      listen toNumber (body ++ chunks.flatMap decode) [.ended] := by
  induction chunks generalizing body with
  | nil =>
    rw [List.flatMap_nil, List.append_nil]
    rfl
  | cons chunk chunks ih =>
    rw [List.flatMap_cons, ← List.append_assoc, ← ih]
    rfl

theorem parseJsonBody_arriving (chunks : List (List UInt8)) :
    parseJsonBody toNumber (arriving chunks : List (Event ε)) =
      listen toNumber (chunks.flatMap decode) [.ended] := listen_arriving toNumber chunks []

theorem parseJsonBody_whole {text : List Char} {chunks : List (List UInt8)}
    (h : chunks.flatten = encode text) :
    parseJsonBody toNumber (arriving [chunks.flatten] : List (Event ε)) =
      listen toNumber text [.ended] := by
  rw [parseJsonBody_arriving, List.flatMap_singleton, h, decode_encode]

theorem listen_ended_inj {body text : List Char} {t : Json.Tree (List Nat)}
    (ht : Json.treeOf text = some t)
    (h : listen toNumber body ([.ended] : List (Event ε)) = listen toNumber text [.ended]) :
    Json.parse toNumber text = Json.parse toNumber body := by
  have htext : Json.parse toNumber text = some (t.value toNumber) := by
    rw [Json.parse, ht]
    rfl
  unfold listen at h
  rw [htext] at h ⊢
  cases hbody : Json.parse toNumber body with
  | none =>
    rw [hbody] at h
    cases h
  | some value =>
    rw [hbody] at h
    injection h with h
    injection h with h
    rw [h]

def AsOneChunk (ε : Type*) (toNumber : List Char → ν) (chunks : List (List UInt8)) : Prop :=
  parseJsonBody toNumber (arriving chunks : List (Event ε)) =
    parseJsonBody toNumber (arriving [chunks.flatten])

def BetweenChars (chunks : List (List UInt8)) : Prop := ∀ chunk ∈ chunks, ∃ s, chunk = encode s

/-- A JSON text whose chunks begin and end between characters has the value of the whole. Where no
object repeats a name, a cut within a character gives another outcome. -/
theorem parseJsonBody_asOneChunk_iff {text : List Char} {t : Json.Tree (List Nat)}
    (ht : Json.treeOf text = some t) {chunks : List (List UInt8)}
    (hchunks : chunks.flatten = encode text) :
    (BetweenChars chunks → AsOneChunk ε toNumber chunks) ∧
      (t.Distinct → (AsOneChunk ε toNumber chunks ↔ BetweenChars chunks)) := by
  have hbetween : BetweenChars chunks → AsOneChunk ε toNumber chunks := by
    intro h
    rw [AsOneChunk, parseJsonBody_arriving, parseJsonBody_whole toNumber hchunks,
      flatMap_decode h, hchunks, decode_encode]
  refine ⟨hbetween, fun hdistinct => ⟨fun h => ?_, hbetween⟩⟩
  rw [AsOneChunk, parseJsonBody_arriving, parseJsonBody_whole toNumber hchunks] at h
  have hparse := listen_ended_inj toNumber ht h
  obtain ⟨blocks, rfl, hdecode, hall, hwhole⟩ := exists_blocks hchunks
  obtain ⟨cuts, rfl⟩ : ∃ cuts : List Json.Cut, cuts.map Subtype.val = blocks :=
    ⟨blocks.attachWith _ hall, List.attachWith_map_subtype_val hall⟩
  rw [List.flatMap_map] at hdecode
  rw [List.map_map] at ht hparse
  rw [hdecode] at hparse
  have hsame := Json.whole_of_parse_eq ht hdistinct hparse
  exact hwhole (List.forall_mem_map.mpr hsame)

theorem parseJsonBody_asOneChunk_member :
    AsOneChunk Unit (fun _ => ())
        [encode ['\x7b', '"', 'n', '"', ':'], encode ['"', 'é', '"', '\x7d']] ∧
      BetweenChars [encode ['\x7b', '"', 'n', '"', ':'], encode ['"', 'é', '"', '\x7d']] := by
  have ht : Json.treeOf ['\x7b', '"', 'n', '"', ':', '"', 'é', '"', '\x7d'] =
      some (.object [([0x6E], .string [0xE9])]) := rfl
  have hchunks : [encode ['\x7b', '"', 'n', '"', ':'], encode ['"', 'é', '"', '\x7d']].flatten =
      encode ['\x7b', '"', 'n', '"', ':', '"', 'é', '"', '\x7d'] := by decide
  have hdistinct : (Json.Tree.object [([0x6E], .string [0xE9])]).Distinct :=
    .object (List.pairwise_singleton _ _) (List.forall_mem_singleton.mpr (.string _))
  have hbetween : BetweenChars
      [encode ['\x7b', '"', 'n', '"', ':'], encode ['"', 'é', '"', '\x7d']] :=
    List.forall_mem_cons.mpr ⟨⟨_, rfl⟩, List.forall_mem_singleton.mpr ⟨_, rfl⟩⟩
  have hsame : AsOneChunk Unit (fun _ => ()) _ :=
    (parseJsonBody_asOneChunk_iff (fun _ => ()) ht hchunks).1 hbetween
  exact ⟨hsame, ((parseJsonBody_asOneChunk_iff (fun _ => ()) ht hchunks).2 hdistinct).mp hsame⟩

/-- The same text in two chunks of which the first ends within a character: the member becomes two
U+FFFD. -/
theorem not_asOneChunk_cut :
    Json.treeOf ['\x7b', '"', 'n', '"', ':', '"', 'é', '"', '\x7d'] =
        some (.object [([0x6E], .string [0xE9])]) ∧
      [[0x7B, 0x22, 0x6E, 0x22, 0x3A, 0x22, 0xC3], [0xA9, 0x22, 0x7D]].flatten =
        encode ['\x7b', '"', 'n', '"', ':', '"', 'é', '"', '\x7d'] ∧
      ¬ AsOneChunk Unit (fun _ => ())
        [[0x7B, 0x22, 0x6E, 0x22, 0x3A, 0x22, 0xC3], [0xA9, 0x22, 0x7D]] := by
  refine ⟨rfl, by decide, fun h => ?_⟩
  have hobject := Json.Value.object.inj (Except.ok.inj (Option.some.inj h))
  have hmember := Option.some.inj (congrFun hobject [0x6E])
  have hunits := Json.Value.string.inj hmember
  exact absurd hunits (by decide)

end IpfsShard.Api
