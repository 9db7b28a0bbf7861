import IpfsShard.Api.Arguments
import IpfsShard.Api.DagStat
import IpfsShard.Blockstore.Network

/-! `GET /blocks`, `/cat` and `/ls`, and the walk of a client that follows the entries of `/ls`
from one directory to the next. -/

namespace IpfsShard.Api
open IpfsShard.Blockstore DagPb Wire

structure BlockReads where
  has : CID → Except StoreError Bool
  get : CID → Except StoreError (List Bytes)

/-- The blockstore, and `CID.parse` with the text of what it throws, `CID.decode`,
`cid.toString()` and `TextDecoder`. -/
structure BlocksContext where
  blockstore : BlockReads
  parse : String → Except String CID
  decode : Bytes → Except StoreError CID
  toString : CID → String
  decodeText : Bytes → String

structure DirEntry where
  name : String
  cid : Option String
  size : Int
  deriving DecidableEq

inductive BlocksAnswer where
  | found (cid : String) (blockExists : Bool)
  | block (data : Bytes)
  | directory (entries : List DirEntry)
  | node (type : String)
  | error (status : Nat) (text : String) (details cid : Option String)
  deriving DecidableEq

inductive BlocksAction where
  | check
  | cat
  | ls
  deriving DecidableEq

def isNotFound (err : StoreError) : Bool :=
  err.code == some "ERR_NOT_FOUND" || err.name == some "NotFoundError" ||
    err.name == some "GetFailedError" || err.message.any (includes · "not found") ||
    err.message.any (includes · "NoSuchKey")

/-- 1 is a directory and 2 a file. -/
def unixFSType : Option Bytes → Int
  | some (tag :: type :: _) => if tag = 8 then type.toNat else -1
  | _ => -1

def BlockReads.concat (blockstore : BlockReads) (cid : CID) : Except StoreError Bytes :=
  (blockstore.get cid).map List.flatten

def internalError : BlocksAnswer := .error 500 "Internal server error" none none

def lsError (err : StoreError) : BlocksAnswer :=
  if isNotFound err then .error 404 "Block not found" none none
  else .error 500 "Failed to decode block" none none

namespace BlocksContext

variable (ctx : BlocksContext)

def check (cidStr : String) (cid : CID) : BlocksAnswer :=
  match ctx.blockstore.has cid with
  | .ok blockExists => .found cidStr blockExists
  -- caught by the outer `try`
  | .error _ => internalError

def cat (cidStr : String) (cid : CID) : BlocksAnswer :=
  match ctx.blockstore.concat cid with
  | .ok data => .block data
  | .error err =>
    if isNotFound err then .error 404 "Block not found" none (some cidStr)
    else .error 500 "Failed to retrieve block" none none

def entry (l : PBLink) : Except StoreError DirEntry :=
  match l.hash with
  | none => .ok ⟨l.name, none, l.size⟩
  | some hash => (ctx.decode hash).map fun cid => ⟨l.name, some (ctx.toString cid), l.size⟩

def lsNode (node : PBNode) : BlocksAnswer :=
  if unixFSType node.data = 1 then
    match node.links.mapM ctx.entry with
    | .ok entries => .directory entries
    | .error err => lsError err
  else .node (if unixFSType node.data = 2 then "file" else "unknown")

/-- `none`: the parser takes more than `fuel` passes. -/
def ls (fuel : Nat) (cid : CID) : Option BlocksAnswer :=
  match ctx.blockstore.concat cid with
  | .ok block => (decodeDagPB ctx.decodeText fuel block).map ctx.lsNode
  | .error err => some (lsError err)

def act (fuel : Nat) (cidStr : String) (cid : CID) : BlocksAction → Option BlocksAnswer
  | .check => some (ctx.check cidStr cid)
  | .cat => some (ctx.cat cidStr cid)
  | .ls => ctx.ls fuel cid

def handleBlocks (fuel : Nat) (req : Request) (action : BlocksAction) : Option BlocksAnswer :=
  match blocksArgument req with
  | none => some internalError
  | some arg =>
    match ctx.parse (String.ofList arg) with
    | .error err => some (.error 400 "Invalid CID" (if action = .ls then none else some err) none)
    | .ok cid => ctx.act fuel (String.ofList arg) cid action

end BlocksContext

def BlocksAction.call : BlocksAction → Call
  | check => ⟨.handleBlocks, some "check"⟩
  | cat => ⟨.handleBlocks, some "cat"⟩
  | ls => ⟨.handleBlocks, some "ls"⟩

def BlocksAction.pre : BlocksAction → String
  | check => "/blocks/"
  | cat => "/cat/"
  | ls => "/ls/"

def BlocksAction.ofCall (call : Call) : Option BlocksAction :=
  [check, cat, ls].find? fun action => action.call = call

namespace BlocksContext

variable (ctx : BlocksContext)

def serve (fuel : Nat) (req : Request) : Option BlocksAnswer :=
  ((createApiRouter req).bind BlocksAction.ofCall).bind (ctx.handleBlocks fuel req)

def Answers (req : Request) (answer : BlocksAnswer) : Prop :=
  ∃ fuel, ctx.serve fuel req = some answer

def request (action : BlocksAction) (cid : CID) (rest : Text) : Request :=
  ⟨"GET", action.pre.toList ++ ((ctx.toString cid).toList ++ rest)⟩

structure Named (cid : CID) : Prop where
  nonempty : (ctx.toString cid).toList ≠ []
  segment : (ctx.toString cid).toList.all inSegment = true
  parse : ctx.parse (ctx.toString cid) = .ok cid

end BlocksContext

variable {ctx : BlocksContext} {action : BlocksAction} {req : Request} {cid next root : CID}
  {rest : Text} {answer answer' : BlocksAnswer} {n m : Nat}

theorem BlocksAction.ofCall_call (action : BlocksAction) : ofCall action.call = some action := by
  cases action <;> rfl

theorem BlocksAction.route_mem (action : BlocksAction) :
    action.pre ∈ cidPrefixes ∧ ⟨"GET", .segment action.pre, action.call⟩ ∈ routes := by
  cases action <;> decide

theorem BlocksAction.pre_eq (action : BlocksAction) :
    ∃ dir : Text, action.pre.toList = '/' :: dir ++ ['/'] ∧ '/' ∉ dir := by
  cases action with
  | check => exact ⟨"blocks".toList, rfl, by decide⟩
  | cat => exact ⟨"cat".toList, rfl, by decide⟩
  | ls => exact ⟨"ls".toList, rfl, by decide⟩

theorem blocksArgument_request (h : ctx.Named cid) (hrest : ∀ c ∈ rest.head?, c = '?') :
    blocksArgument (ctx.request action cid rest) = some (ctx.toString cid).toList := by
  obtain ⟨dir, hpre, hdir⟩ := action.pre_eq
  have hpath : (ctx.request action cid rest).path =
      '/' :: dir ++ ['/'] ++ ((ctx.toString cid).toList ++ rest) := by
    unfold BlocksContext.request
    rw [hpre]
    exact if_neg (List.cons_ne_nil _ _)
  obtain ⟨hslash, hquery⟩ := not_mem_of_inSegment h.segment
  unfold blocksArgument
  rw [hpath]
  exact splitOn_argument dir hdir hquery hslash hrest

theorem serve_request (h : ctx.Named cid) (hrest : ∀ c ∈ rest.head?, c = '?') (fuel : Nat) :
    ctx.serve fuel (ctx.request action cid rest) = ctx.act fuel (ctx.toString cid) cid action := by
  obtain ⟨hpre, hroute⟩ := action.route_mem
  have hrouted : createApiRouter (ctx.request action cid rest) = some action.call :=
    createApiRouter_segment hpre hroute h.nonempty h.segment hrest
  unfold BlocksContext.serve BlocksContext.handleBlocks
  rw [hrouted, Option.bind_some, action.ofCall_call, Option.bind_some,
    blocksArgument_request h hrest]
  simp only [String.ofList_toList, h.parse]

/-- A directory with its entries, or a block that is never taken for one, be it that the parser does
not return. -/
inductive TreeNode (ctx : BlocksContext) (block : Bytes) : List CID → Prop where
  | directory {links : List Link} {data : Bytes} {fields : List RawField} {cids : List CID} :
      Serialised links (some data) fields → unixFSType (some data) = 1 → block = encodeRaw fields →
      List.Forall₂ (fun (l : Link) cid => ∃ hash, l.hash = some hash ∧ ctx.decode hash = .ok cid)
        links cids → TreeNode ctx block cids
  | leaf : (∀ node, DecodesTo ctx.decodeText block node → unixFSType node.data ≠ 1) →
      TreeNode ctx block []

structure Tree (ctx : BlocksContext) (root : CID) where
  block : CID → Bytes
  entries : CID → List CID
  dag : RootedDag entries root
  node : ∀ cid ∈ dag.nodes, TreeNode ctx (block cid) (entries cid)
  named : ∀ cid ∈ dag.nodes, ctx.Named cid
  held : ∀ cid ∈ dag.nodes, ctx.blockstore.concat cid = .ok (block cid)

def BlocksAnswer.LeadsTo (ctx : BlocksContext) (answer : BlocksAnswer) (next : CID) : Prop :=
  ∃ entries, answer = .directory entries ∧
    ∃ e ∈ entries, ∃ cidStr, e.cid = some cidStr ∧ ctx.parse cidStr = .ok next

def BlocksContext.Lists (ctx : BlocksContext) (cid next : CID) : Prop :=
  ∃ rest answer, (∀ c ∈ rest.head?, c = '?') ∧
    ctx.Answers (ctx.request .ls cid rest) answer ∧ answer.LeadsTo ctx next

theorem ls_mono (hnm : n ≤ m) (h : ctx.ls n cid = some answer) : ctx.ls m cid = some answer := by
  unfold BlocksContext.ls at h ⊢
  cases hblock : ctx.blockstore.concat cid with
  | error err =>
    rw [hblock] at h
    exact h
  | ok block =>
    rw [hblock] at h
    obtain ⟨node, hnode, hanswer⟩ := Option.map_eq_some_iff.mp h
    exact Option.map_eq_some_iff.mpr ⟨node, decodeDagPB_mono hnm hnode, hanswer⟩

theorem answers_ls_iff (h : ctx.Named cid) (hrest : ∀ c ∈ rest.head?, c = '?') :
    ctx.Answers (ctx.request .ls cid rest) answer ↔ ∃ fuel, ctx.ls fuel cid = some answer :=
  exists_congr fun fuel => by
    rw [serve_request h hrest]
    rfl

theorem answers_cat_iff (h : ctx.Named cid) (hrest : ∀ c ∈ rest.head?, c = '?') :
    ctx.Answers (ctx.request .cat cid rest) answer ↔ ctx.cat (ctx.toString cid) cid = answer := by
  unfold BlocksContext.Answers
  simp only [serve_request h hrest, BlocksContext.act, Option.some.injEq, exists_const]

theorem ls_unique (h : ctx.ls n cid = some answer) (h' : ctx.ls m cid = some answer') :
    answer = answer' := by
  have hleft := ls_mono (Nat.le_max_left n m) h
  exact Option.some.inj (hleft.symm.trans (ls_mono (Nat.le_max_right n m) h'))

theorem exists_ls {block : Bytes} (h : ctx.blockstore.concat cid = .ok block) {node : PBNode}
    (hnode : DecodesTo ctx.decodeText block node) :
    ∃ fuel, ctx.ls fuel cid = some (ctx.lsNode node) := by
  obtain ⟨fuel, hfuel⟩ := hnode
  refine ⟨fuel, ?_⟩
  unfold BlocksContext.ls
  rw [h]
  exact congrArg (Option.map ctx.lsNode) hfuel

theorem exists_node_of_ls {block : Bytes} (h : ctx.blockstore.concat cid = .ok block)
    (hls : ctx.ls n cid = some answer) :
    ∃ node, DecodesTo ctx.decodeText block node ∧ answer = ctx.lsNode node := by
  unfold BlocksContext.ls at hls
  rw [h] at hls
  obtain ⟨node, hnode, hanswer⟩ := Option.map_eq_some_iff.mp hls
  exact ⟨node, ⟨n, hnode⟩, hanswer.symm⟩

def BlocksContext.entryOf (ctx : BlocksContext) (l : Link × CID) : DirEntry where
  name := (l.1.parsed ctx.decodeText).name
  cid := some (ctx.toString l.2)
  size := (l.1.parsed ctx.decodeText).size

theorem mapM_entry {links : List Link} {cids : List CID}
    (h : List.Forall₂ (fun (l : Link) cid => ∃ hash, l.hash = some hash ∧ ctx.decode hash = .ok cid)
      links cids) :
    (links.map (Link.parsed ctx.decodeText)).mapM ctx.entry =
      .ok ((links.zip cids).map ctx.entryOf) := by
  induction h with
  | nil => rfl
  | @cons l cid links cids hl _ ih =>
    obtain ⟨hash, hhash, hdecode⟩ := hl
    have hentry : ctx.entry (l.parsed ctx.decodeText) = .ok (ctx.entryOf (l, cid)) := by
      unfold BlocksContext.entry
      simp only [Link.parsed, hhash, hdecode]
      rfl
    rw [List.map_cons, List.mapM_cons, hentry, ih]
    rfl

theorem exists_entryOf_iff {links : List Link} {cids : List CID} (hlen : links.length = cids.length)
    (hnamed : ∀ cid ∈ cids, ctx.Named cid) :
    (∃ e ∈ (links.zip cids).map ctx.entryOf,
      ∃ cidStr, e.cid = some cidStr ∧ ctx.parse cidStr = .ok next) ↔ next ∈ cids := by
  have hcids : ((links.zip cids).map ctx.entryOf).map DirEntry.cid =
      cids.map fun cid => some (ctx.toString cid) := by
    conv_rhs => rw [← List.map_snd_zip hlen.ge]
    rw [List.map_map, List.map_map]
    rfl
  constructor
  · rintro ⟨e, he, cidStr, hstr, hparse⟩
    have hmem := List.mem_map_of_mem (f := DirEntry.cid) he
    rw [hcids, hstr] at hmem
    obtain ⟨cid, hcid, heq⟩ := List.mem_map.mp hmem
    rw [← Option.some.inj heq, (hnamed cid hcid).parse] at hparse
    exact Except.ok.inj hparse ▸ hcid
  · intro hnext
    have hmem : some (ctx.toString next) ∈ cids.map fun cid => some (ctx.toString cid) :=
      List.mem_map_of_mem hnext
    rw [← hcids] at hmem
    obtain ⟨e, he, hstr⟩ := List.mem_map.mp hmem
    exact ⟨e, he, ctx.toString next, hstr, (hnamed next hnext).parse⟩

theorem unixFSType_lsNode {node : PBNode} (h : unixFSType node.data ≠ 1) :
    ¬ (ctx.lsNode node).LeadsTo ctx next := by
  rintro ⟨entries, heq, -⟩
  rw [BlocksContext.lsNode, if_neg h] at heq
  cases heq

namespace Tree

variable (tree : Tree ctx root)

theorem entries_mem (hcid : cid ∈ tree.dag.nodes) (h : next ∈ tree.entries cid) :
    next ∈ tree.dag.nodes :=
  (tree.dag.mem_iff next).mpr (((tree.dag.mem_iff cid).mp hcid).tail h)

theorem exists_ls_iff (hcid : cid ∈ tree.dag.nodes) :
    (∃ fuel answer, ctx.ls fuel cid = some answer ∧ answer.LeadsTo ctx next) ↔
      next ∈ tree.entries cid := by
  have hmem : ∀ next ∈ tree.entries cid, next ∈ tree.dag.nodes := fun _ => tree.entries_mem hcid
  have hheld := tree.held cid hcid
  have hnode := tree.node cid hcid
  generalize tree.entries cid = cids at hmem hnode ⊢
  generalize tree.block cid = block at hheld hnode
  cases hnode with
  | @directory links data fields _ hserialised htype hblock hlinks =>
    have hdecoded := decodeDagPB_serialised ctx.decodeText hserialised
    rw [← hblock] at hdecoded
    obtain ⟨fuel, hls⟩ := exists_ls hheld hdecoded
    have hnamed : ∀ cid ∈ cids, ctx.Named cid := fun cid h => tree.named cid (hmem cid h)
    rw [BlocksContext.lsNode, if_pos htype, mapM_entry hlinks] at hls
    rw [← exists_entryOf_iff hlinks.length_eq hnamed]
    constructor
    · rintro ⟨fuel', answer, hls', entries, rfl, he⟩
      obtain rfl := BlocksAnswer.directory.inj (ls_unique hls' hls)
      exact he
    · exact fun he => ⟨fuel, _, hls, _, rfl, he⟩
  | leaf hleaf =>
    refine iff_of_false ?_ List.not_mem_nil
    rintro ⟨fuel, answer, hls, hleads⟩
    obtain ⟨node, hdecoded, rfl⟩ := exists_node_of_ls hheld hls
    exact unixFSType_lsNode (hleaf node hdecoded) hleads

theorem lists_iff (hcid : cid ∈ tree.dag.nodes) : ctx.Lists cid next ↔ next ∈ tree.entries cid := by
  have hnamed := tree.named cid hcid
  rw [← tree.exists_ls_iff hcid]
  constructor
  · rintro ⟨rest, answer, hrest, hanswer, hnext⟩
    obtain ⟨fuel, hls⟩ := (answers_ls_iff hnamed hrest).mp hanswer
    exact ⟨fuel, answer, hls, hnext⟩
  · rintro ⟨fuel, answer, hls, hnext⟩
    exact ⟨[], answer, head?_nil, (answers_ls_iff hnamed head?_nil).mpr ⟨fuel, hls⟩, hnext⟩

end Tree

/-- A client that follows the entries of `/ls` from the root gets to the blocks of the tree and to
no others, and `/cat` gives it each of them. -/
theorem walk_tree (tree : Tree ctx root) :
    (∀ cid, Relation.ReflTransGen ctx.Lists root cid ↔ cid ∈ tree.dag.nodes) ∧
      ∀ cid ∈ tree.dag.nodes, ∀ rest : Text, (∀ c ∈ rest.head?, c = '?') →
        ctx.Answers (ctx.request .cat cid rest) (.block (tree.block cid)) := by
  refine ⟨fun cid => ⟨fun h => ?_, fun h => ?_⟩, fun cid hcid rest hrest => ?_⟩
  · induction h with
    | refl => exact tree.dag.root_mem
    | tail _ hlists ih => exact tree.entries_mem ih ((tree.lists_iff ih).mp hlists)
  · induction (tree.dag.mem_iff cid).mp h with
    | refl => exact .refl
    | @tail cid next hpath hnext ih =>
      have hcid := (tree.dag.mem_iff cid).mpr hpath
      exact (ih hcid).tail ((tree.lists_iff hcid).mpr hnext)
  · refine (answers_cat_iff (tree.named cid hcid) hrest).mpr ?_
    unfold BlocksContext.cat
    rw [tree.held cid hcid]

end IpfsShard.Api
