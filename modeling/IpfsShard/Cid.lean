import IpfsShard.Codec.Varint
import Mathlib.Logic.Equiv.List

/-! Content identifiers, and the functions of `multiformats` that the node calls. The
package is not part of the repository, so these are parameters. -/

namespace IpfsShard

structure Multihash where
  code : Nat
  digest : Bytes
  deriving DecidableEq, Repr

/-- A CID object. A version 0 CID has the dag-pb codec. `code` is an integer because
`prefixToCID` passes on whatever its signed varint reader returned. -/
inductive CID where
  | v0 (multihash : Multihash)
  | v1 (code : Int) (multihash : Multihash)
  deriving DecidableEq, Repr

namespace CID

def version : CID → Int
  | v0 _ => 0
  | v1 _ _ => 1

def code : CID → Int
  | v0 _ => 0x70
  | v1 code _ => code

def multihash : CID → Multihash
  | v0 multihash => multihash
  | v1 _ multihash => multihash

end CID

def sha256Code : Nat := 0x12

/-- `cid.bytes`, `CID.decode` (`none` where it throws), `cid.toString()`, and the digest
of some data under the hash function with a given multihash code. -/
structure Multiformats where
  bytes : CID → Bytes
  decode : Bytes → Option CID
  toString : CID → String
  hash : Nat → Bytes → Bytes

namespace Multiformats

def sha256 (M : Multiformats) (data : Bytes) : Multihash := ⟨sha256Code, M.hash sha256Code data⟩

def BuiltFrom (M : Multiformats) (data : Bytes) (cid : CID) : Prop :=
  cid = .v0 (M.sha256 data) ∨ ∃ code, cid = .v1 code (M.sha256 data)

theorem builtFrom_iff (M : Multiformats) (data : Bytes) (cid : CID) :
    M.BuiltFrom data cid ↔ cid.multihash = M.sha256 data := by
  cases cid with
  | v0 mh => simp [BuiltFrom, CID.multihash]
  | v1 code mh => simp [BuiltFrom, CID.multihash]

def emptyDigest : Bytes :=
  [0xe3, 0xb0, 0xc4, 0x42, 0x98, 0xfc, 0x1c, 0x14, 0x9a, 0xfb, 0xf4, 0xc8, 0x99, 0x6f, 0xb9, 0x24,
    0x27, 0xae, 0x41, 0xe4, 0x64, 0x9b, 0x93, 0x4c, 0xa4, 0x95, 0x99, 0x1b, 0x78, 0x52, 0xb8, 0x55]

def emptyRaw : CID := .v1 0x55 ⟨sha256Code, emptyDigest⟩

def encodeMultihash (mh : Multihash) : Bytes :=
  Leb128.encode mh.code ++ Leb128.encode mh.digest.length ++ mh.digest

def encodeCid : CID → Bytes
  | .v0 mh => encodeMultihash mh
  | .v1 code mh => Leb128.encode 1 ++ Leb128.encode code.toNat ++ encodeMultihash mh

def decodeCid (bytes : Bytes) : Option CID :=
  if bytes.take 2 = [0x12, 0x20] then
    if bytes.length = 34 then some (.v0 ⟨sha256Code, bytes.drop 2⟩) else none
  else
    let (version, n₀) := Codec.readVarint bytes 0
    let (code, n₁) := Codec.readVarint bytes n₀
    let (hashCode, n₂) := Codec.readVarint bytes (n₀ + n₁)
    let (size, n₃) := Codec.readVarint bytes (n₀ + n₁ + n₂)
    let digest := bytes.drop (n₀ + n₁ + n₂ + n₃)
    if version = 1 ∧ size = digest.length then some (.v1 code ⟨hashCode.toNat, digest⟩) else none

def cidNumbers : CID → List ℕ
  | .v0 mh => 0 :: mh.code :: mh.digest.map UInt8.toNat
  | .v1 code mh => 1 :: Encodable.encode code :: mh.code :: mh.digest.map UInt8.toNat

def cidText (cid : CID) : String :=
  if cid = emptyRaw then "bafkreihdwdcefgh4dqkjv67uzcmw7ojee6xedzdetojuzjevtenxquvyku"
  else String.ofList (List.replicate (Encodable.encode (cidNumbers cid)) 'x')

def onEmptyBlock : Multiformats where
  bytes := encodeCid
  decode := decodeCid
  toString := cidText
  hash _ _ := emptyDigest

def cidOfNumbers : List ℕ → Option CID
  | 0 :: hashCode :: digest => some (.v0 ⟨hashCode, digest.map UInt8.ofNat⟩)
  | 1 :: code :: hashCode :: digest =>
    (Encodable.decode code).map fun code => .v1 code ⟨hashCode, digest.map UInt8.ofNat⟩
  | _ => none

theorem cidOfNumbers_cidNumbers (cid : CID) : cidOfNumbers (cidNumbers cid) = some cid := by
  have hdigest : ∀ digest : Bytes, (digest.map UInt8.toNat).map UInt8.ofNat = digest := by
    intro digest
    rw [List.map_map]
    exact (List.map_congr_left fun b _ => UInt8.ofNat_toNat).trans (List.map_id digest)
  cases cid with
  | v0 mh => simp only [cidNumbers, cidOfNumbers, hdigest]
  | v1 code mh =>
    simp only [cidNumbers, cidOfNumbers, hdigest, Encodable.encodek, Option.map_some]

def textNaming (named : CID) (text : String) (cid : CID) : String :=
  if cid = named then text
  else String.ofList (List.replicate (Encodable.encode (cidNumbers cid)) 'x')

def parseNaming (named : CID) (text : String) (s : String) : Option CID :=
  if s = text then some named else (Encodable.decode s.toList.length).bind cidOfNumbers

theorem parseNaming_textNaming (named : CID) (text : String) {a : Char} (ha : a ∈ text.toList)
    (hx : a ≠ 'x') (cid : CID) : parseNaming named text (textNaming named text cid) = some cid := by
  have hfallback : ∀ n, String.ofList (List.replicate n 'x') ≠ text := by
    intro n h
    rw [← h, String.toList_ofList] at ha
    exact hx (List.eq_of_mem_replicate ha)
  unfold textNaming parseNaming
  by_cases hc : cid = named
  · rw [if_pos hc, if_pos rfl, hc]
  · rw [if_neg hc, if_neg (hfallback _), String.toList_ofList, List.length_replicate,
      Encodable.encodek, Option.bind_some, cidOfNumbers_cidNumbers]

theorem textNaming_injective (named : CID) (text : String) {a : Char} (ha : a ∈ text.toList)
    (hx : a ≠ 'x') : Function.Injective (textNaming named text) := by
  intro cid cid' h
  have hboth := congrArg (parseNaming named text) h
  rw [parseNaming_textNaming named text ha hx, parseNaming_textNaming named text ha hx] at hboth
  exact Option.some.inj hboth

def cidParse : String → Option CID :=
  parseNaming emptyRaw "bafkreihdwdcefgh4dqkjv67uzcmw7ojee6xedzdetojuzjevtenxquvyku"

theorem cidParse_cidText (cid : CID) : cidParse (cidText cid) = some cid :=
  parseNaming_textNaming emptyRaw "bafkreihdwdcefgh4dqkjv67uzcmw7ojee6xedzdetojuzjevtenxquvyku"
    (a := 'b') (by decide) (by decide) cid

theorem cidText_injective : Function.Injective cidText :=
  textNaming_injective emptyRaw "bafkreihdwdcefgh4dqkjv67uzcmw7ojee6xedzdetojuzjevtenxquvyku"
    (a := 'b') (by decide) (by decide)

def letterDigest : Bytes :=
  [0xca, 0x97, 0x81, 0x12, 0xca, 0x1b, 0xbd, 0xca, 0xfa, 0xc2, 0x31, 0xb3, 0x9a, 0x23, 0xdc, 0x4d,
    0xa7, 0x86, 0xef, 0xf8, 0x14, 0x7c, 0x4e, 0x72, 0xb9, 0x80, 0x77, 0x85, 0xaf, 0xee, 0x48, 0xbb]

def letterA : CID := .v1 0x55 ⟨sha256Code, letterDigest⟩

def letterText : CID → String :=
  textNaming letterA "bafkreigks6arfsq3xxfpvqrrwonchxcnu6do76auprhhfomao6c273sixm"

def onLetterA : Multiformats where
  bytes := encodeCid
  decode := decodeCid
  toString := letterText
  hash _ _ := letterDigest

theorem letterText_injective : Function.Injective letterText :=
  textNaming_injective letterA _ (a := 'b') (by decide) (by decide)

end Multiformats
end IpfsShard
