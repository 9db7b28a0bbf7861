import IpfsShard.Cid
import IpfsShard.DagPb.RoundTrip
import Mathlib.Algebra.BigOperators.Group.Finset.Basic
import Mathlib.Data.Finset.Card
import Mathlib.Logic.Relation

/-! Finite acyclic graphs with a root from which every node is reached; and `POST /dag/stat`, over a
blockstore that holds the blocks of such a graph. -/

section

universe u

structure RootedDag {α : Type u} (links : α → List α) (root : α) where
  nodes : Finset α
  mem_iff : ∀ a, a ∈ nodes ↔ Relation.ReflTransGen (fun a b => b ∈ links a) root a
  acyclic : ∀ a ∈ nodes, ¬ Relation.TransGen (fun a b => b ∈ links a) a a

namespace RootedDag

variable {α : Type u} {links : α → List α} {root a : α}

theorem root_mem (dag : RootedDag links root) : root ∈ dag.nodes := (dag.mem_iff root).mpr .refl

theorem nodes_eq_singleton (dag : RootedDag links root) (h : links root = []) :
    dag.nodes = {root} := by
  refine Finset.eq_singleton_iff_unique_mem.mpr ⟨dag.root_mem, fun a ha => ?_⟩
  rcases ((dag.mem_iff a).mp ha).cases_head with heq | ⟨b, hb, -⟩
  · exact heq.symm
  · rw [h] at hb
    cases hb

theorem card_eq_one_iff (dag : RootedDag links root) : dag.nodes.card = 1 ↔ links root = [] := by
  constructor
  · intro hone
    refine List.eq_nil_iff_forall_not_mem.mpr fun b hb => ?_
    have hmem : b ∈ dag.nodes := (dag.mem_iff b).mpr (.single hb)
    obtain rfl := Finset.card_le_one.mp (Nat.le_of_eq hone) root dag.root_mem b hmem
    exact dag.acyclic root dag.root_mem (.single hb)
  · intro h
    rw [dag.nodes_eq_singleton h, Finset.card_singleton]

end RootedDag

end

namespace IpfsShard.Api
open DagPb Multiformats Wire

/-- `has`, and all that `get` yields; an error is the text of what is thrown. -/
structure Blockstore where
  has : CID → Except String Bool
  get : CID → Except String (List Bytes)

inductive DagStatAnswer where
  | ok (Size NumBlocks : Nat)
  | error (status : Nat) (text : String) (details : Option String)
  deriving DecidableEq

/-- The block is read in the inner `try`. -/
def blockSize (blockstore : Blockstore) (cid : CID) : Except String Nat := do
  let blockExists ← blockstore.has cid
  if !blockExists then throw "Error: Block not found in local blockstore"
  let chunks ← blockstore.get cid
  return (chunks.map List.length).sum

/-- `handleStats` with the action `dag-stat`. `arg` is the query parameter, and `parse` is
`CID.parse`. -/
def handleDagStat (parse : String → Except String CID) (blockstore : Blockstore)
    (arg : Option String) : DagStatAnswer :=
  match arg.filter (· != "") with
  | none => .error 400 "Missing or invalid arg query parameter" none
  | some arg =>
    match parse arg with
    | .error err => .error 500 "Invalid CID" (some err)
    | .ok cid =>
      match blockSize blockstore cid with
      | .ok totalSize => .ok totalSize 1
      | .error err => .error 500 "Failed to get DAG stat" (some err)

def rawCode : Int := 0x55

def dagPbCode : Int := 0x70

inductive Links (M : Multiformats) (cid : CID) (block : Bytes) : List CID → Prop where
  | raw : cid.code = rawCode → Links M cid block []
  | dagPb {links : List Link} {data : Option Bytes} {fields : List RawField} {cids : List CID} :
      cid.code = dagPbCode → Serialised links data fields → block = encodeRaw fields →
      (links.map fun l => l.hash.bind M.decode) = cids.map some → Links M cid block cids

structure StoredDag (M : Multiformats) (blockstore : Blockstore) (root : CID) where
  block : CID → Bytes
  links : CID → List CID
  dag : RootedDag links root
  linked : ∀ cid ∈ dag.nodes, Links M cid (block cid) (links cid)
  held : ∀ cid ∈ dag.nodes, blockstore.has cid = .ok true ∧
    ∃ chunks, blockstore.get cid = .ok chunks ∧ chunks.flatten = block cid

def DagStatAnswer.Covers {M : Multiformats} {blockstore : Blockstore} {root : CID}
    (answer : DagStatAnswer) (stored : StoredDag M blockstore root) : Prop :=
  answer = .ok (∑ cid ∈ stored.dag.nodes, (stored.block cid).length) stored.dag.nodes.card

variable {M : Multiformats} {parse : String → Except String CID} {blockstore : Blockstore}
  {root : CID} {arg : String}

theorem handleDagStat_held (stored : StoredDag M blockstore root) (hparse : parse arg = .ok root)
    (harg : arg ≠ "") :
    handleDagStat parse blockstore (some arg) = .ok (stored.block root).length 1 := by
  obtain ⟨hhas, chunks, hget, hblock⟩ := stored.held root stored.dag.root_mem
  have hsize : blockSize blockstore root = .ok (stored.block root).length := by
    rw [← hblock, List.length_flatten]
    simp only [blockSize, hhas, hget]
    rfl
  have hfilter : (some arg).filter (· != "") = some arg := by simp [harg]
  simp only [handleDagStat, hfilter, hparse, hsize]

/-- The answer covers the whole DAG exactly if the root has no links. -/
theorem handleDagStat_covers_iff (stored : StoredDag M blockstore root)
    (hparse : parse arg = .ok root) (harg : arg ≠ "") :
    (handleDagStat parse blockstore (some arg)).Covers stored ↔ stored.links root = [] := by
  rw [handleDagStat_held stored hparse harg, DagStatAnswer.Covers, DagStatAnswer.ok.injEq]
  constructor
  · rintro ⟨-, hcard⟩
    exact stored.dag.card_eq_one_iff.mp hcard.symm
  · intro hlinks
    rw [stored.dag.nodes_eq_singleton hlinks, Finset.sum_singleton, Finset.card_singleton]
    exact ⟨rfl, rfl⟩

def parseOr (parse : String → Option CID) (arg : String) : Except String CID :=
  match parse arg with
  | none => .error "SyntaxError: Unexpected end of data"
  | some cid => .ok cid

def emptyFileLink : Link := ⟨some (onEmptyBlock.bytes emptyRaw), some [], some (.ofNat 0)⟩

def emptyFileFields : List RawField :=
  [.ofBytes 1 (onEmptyBlock.bytes emptyRaw) (by decide +kernel), .ofBytes 2 [] (Nat.two_pow_pos 31),
    .ofVarint 3 0]

theorem length_unixFSDirectory : ([8, 1] : List UInt8).length < 2 ^ 31 := by decide

def dirFields : List RawField :=
  [.ofBytes 2 (encodeRaw emptyFileFields) (by decide +kernel),
    .ofBytes 1 [8, 1] length_unixFSDirectory]

def dirCid : CID := .v1 dagPbCode ⟨sha256Code,
  [0x9f, 0x7d, 0x65, 0x20, 0x35, 0x8c, 0x88, 0xee, 0xaa, 0xee, 0x1a, 0x43, 0x4d, 0x5b, 0x05, 0x7a,
    0x73, 0x13, 0xdc, 0xa8, 0x9d, 0xac, 0xc4, 0x0e, 0x2e, 0x73, 0x27, 0x72, 0x7f, 0x0d, 0x06, 0x86]⟩

def dirText : String := "bafybeie7pvssanmmrdxkv3q2ingvwbl2omj5zke5vtca4ltte5zh6digqy"

def dirStore : Blockstore where
  has cid := .ok (cid = dirCid ∨ cid = emptyRaw)
  get cid :=
    if cid = dirCid then .ok [encodeRaw dirFields]
    else if cid = emptyRaw then .ok [[]]
    else .error "NotFoundError: Not Found"

def dirLinks (cid : CID) : List CID := if cid = dirCid then [emptyRaw] else []

theorem dirCid_ne : emptyRaw ≠ dirCid := by decide

theorem dirLinks_dirCid : dirLinks dirCid = [emptyRaw] := if_pos rfl

theorem dirLinks_emptyRaw : dirLinks emptyRaw = [] := if_neg dirCid_ne

theorem dir_serialised : Serialised [emptyFileLink] (some [8, 1]) dirFields where
  within := by
    unfold RawField.NumeralsWithin
    decide +kernel
  handled := by decide
  links := by
    refine .cons ⟨emptyFileFields, ⟨?_, by decide, rfl, rfl, rfl⟩, rfl⟩ .nil
    unfold RawField.NumeralsWithin
    decide +kernel
  data := rfl

theorem reaches_emptyRaw {a : CID}
    (h : Relation.ReflTransGen (fun a b => b ∈ dirLinks a) emptyRaw a) : a = emptyRaw := by
  rcases h.cases_head with heq | ⟨b, hb, -⟩
  · exact heq.symm
  · rw [dirLinks_emptyRaw] at hb
    cases hb

theorem reaches_dirCid {a : CID} (h : Relation.TransGen (fun a b => b ∈ dirLinks a) dirCid a) :
    a = emptyRaw := by
  obtain ⟨b, hb, hrest⟩ := Relation.TransGen.head'_iff.mp h
  rw [dirLinks_dirCid, List.mem_singleton] at hb
  subst hb
  exact reaches_emptyRaw hrest

theorem not_cycle_emptyRaw : ¬ Relation.TransGen (fun a b => b ∈ dirLinks a) emptyRaw emptyRaw := by
  intro h
  obtain ⟨b, hb, -⟩ := Relation.TransGen.head'_iff.mp h
  rw [dirLinks_emptyRaw] at hb
  cases hb

def emptyFileDag : RootedDag dirLinks emptyRaw where
  nodes := {emptyRaw}
  mem_iff a := by
    rw [Finset.mem_singleton]
    exact ⟨fun h => h ▸ .refl, reaches_emptyRaw⟩
  acyclic a ha h := by
    obtain rfl := Finset.mem_singleton.mp ha
    exact not_cycle_emptyRaw h

def dirDag : RootedDag dirLinks dirCid where
  nodes := {dirCid, emptyRaw}
  mem_iff a := by
    have hlink : emptyRaw ∈ dirLinks dirCid := by
      rw [dirLinks_dirCid]
      exact List.mem_singleton_self emptyRaw
    rw [Finset.mem_insert, Finset.mem_singleton]
    constructor
    · rintro (rfl | rfl)
      · exact .refl
      · exact .single hlink
    · intro h
      exact (Relation.reflTransGen_iff_eq_or_transGen.mp h).imp id reaches_dirCid
  acyclic a ha h := by
    rcases Finset.mem_insert.mp ha with rfl | ha
    · exact dirCid_ne (reaches_dirCid h).symm
    · obtain rfl := Finset.mem_singleton.mp ha
      exact not_cycle_emptyRaw h

def dirBlock (cid : CID) : Bytes := if cid = dirCid then encodeRaw dirFields else []

theorem dirStore_emptyRaw : dirStore.has emptyRaw = .ok true ∧
    ∃ chunks, dirStore.get emptyRaw = .ok chunks ∧ chunks.flatten = dirBlock emptyRaw :=
  ⟨rfl, [[]], rfl, rfl⟩

def storedEmptyFile : StoredDag onEmptyBlock dirStore emptyRaw where
  block := dirBlock
  links := dirLinks
  dag := emptyFileDag
  linked cid hcid := by
    obtain rfl := Finset.mem_singleton.mp hcid
    rw [dirLinks_emptyRaw]
    exact .raw rfl
  held cid hcid := by
    obtain rfl := Finset.mem_singleton.mp hcid
    exact dirStore_emptyRaw

def storedDir : StoredDag onEmptyBlock dirStore dirCid where
  block := dirBlock
  links := dirLinks
  dag := dirDag
  linked cid hcid := by
    rcases Finset.mem_insert.mp hcid with rfl | hcid
    · rw [dirLinks_dirCid]
      exact .dagPb rfl dir_serialised rfl (by decide +kernel)
    · obtain rfl := Finset.mem_singleton.mp hcid
      rw [dirLinks_emptyRaw]
      exact .raw rfl
  held cid hcid := by
    rcases Finset.mem_insert.mp hcid with rfl | hcid
    · exact ⟨rfl, [encodeRaw dirFields], rfl, List.flatten_singleton⟩
    · obtain rfl := Finset.mem_singleton.mp hcid
      exact dirStore_emptyRaw

theorem handleDagStat_covers_emptyFile :
    (handleDagStat (parseOr cidParse) dirStore
      (some "bafkreihdwdcefgh4dqkjv67uzcmw7ojee6xedzdetojuzjevtenxquvyku")).Covers
        storedEmptyFile :=
  (handleDagStat_covers_iff storedEmptyFile rfl (by decide)).mpr dirLinks_emptyRaw

/-- Of the two blocks of the directory, one is counted. -/
theorem not_covers_dir :
    handleDagStat (parseOr (parseNaming dirCid dirText)) dirStore (some dirText) = .ok 48 1 ∧
    ¬ (handleDagStat (parseOr (parseNaming dirCid dirText)) dirStore (some dirText)).Covers
      storedDir := by
  have hanswer : handleDagStat (parseOr (parseNaming dirCid dirText)) dirStore (some dirText) =
      .ok 48 1 := by decide +kernel
  refine ⟨hanswer, fun h => ?_⟩
  rw [hanswer] at h
  have hcard : storedDir.dag.nodes.card = 2 := Finset.card_pair dirCid_ne.symm
  have hone : 1 = storedDir.dag.nodes.card := (DagStatAnswer.ok.inj h).2
  rw [hcard] at hone
  cases hone

end IpfsShard.Api
