import Tfs.Mpt.Node

/-! Operations of the contract storage trie (`class Trie` in `mpt/trie.cpp`).

    `Get` walks down along the key and attaches the stored nodes it loads on the way; `Insert`
    rebuilds the path of the key with new flags, splitting short nodes where keys part; `hash`
    caches hashes in the flags and `Commit` replaces every new node by its hash and records its text.
    Loading can go on for ever in a damaged store, so the walks carry a step count; `none` stands for
    a walk that did not end or left the array of children. -/

namespace Tfs.Mpt
open Tfs.Rlp

/-! ### Get -/

/-- `ReturnNode`. -/
structure ReturnNode where
  valueNode : Node
  newNode : Node

/-- `Trie::Get(n, key, pos)`, with `key` the rest of the key from `pos` on. -/
def getNode (env : TrieEnv) : ℕ → Node → Str → Option ReturnNode
  | 0, _, _ => none
  | _ + 1, .null, _ => some ⟨.null, .null⟩
  | _ + 1, .value data, _ => some ⟨.value data, .value data⟩
  | fuel + 1, .short nodeKey nodeVal nodeFlags, key =>
    if ¬ nodeKey <+: key then some ⟨.null, .null⟩
    else do
      let r ← getNode env fuel nodeVal (key.drop nodeKey.length)
      some ⟨r.valueNode, .short nodeKey (if r.newNode.isNull then nodeVal else r.newNode) nodeFlags⟩
  | _ + 1, .full _ _, [] => none
  | fuel + 1, .full children flags, c :: rest => do
    let i ← childIndex c
    let r ← getNode env fuel (children i) rest
    some ⟨r.valueNode,
      .full (if r.newNode.isNull then children else Function.update children i r.newNode) flags⟩
  | fuel + 1, .hash data, key => do
    let child ← descendKey env data
    getNode env fuel child key

/-- How many steps a walk along `key` may take; a well-formed trie needs at most four per
    character. -/
def walkBound (key : Str) : ℕ := 4 * key.length

/-- The root after `Get`: a value found makes the walk's node the root; otherwise only what was
    changed in place below a loaded root stays. -/
def rootAfterGet (root : Node) (r : ReturnNode) : Node :=
  if r.newNode.isNull then root
  else match root with
    | .hash _ => if r.valueNode.isNull then root else r.newNode
    | _ => r.newNode

/-- `Trie::Get(key)`: the answer and the root afterwards. -/
def trieGet (env : TrieEnv) (root : Node) (key : Str) : Option (Str × Node) := do
  let r ← getNode env (walkBound (wapperKey key)) root (wapperKey key)
  match r.valueNode with
  | .value data => some (data, rootAfterGet root r)
  | _ => some ([], rootAfterGet root r)

/-! ### Insert -/

/-- `ReturnVal`; `err` is always zero. -/
structure ReturnVal where
  dirty : Bool
  node : Node

/-- The branch made of a short node whose key parts from `key` after `matchlen` characters: both
    rests hang as short nodes below their next character. -/
def splitShort (matchlen : ℕ) (nodeKey : Str) (nodeVal : Node) (key : Str) (value : Node) :
    Option Node :=
  match nodeKey.drop matchlen, key.drop matchlen with
  | a :: nodeRest, b :: keyRest => do
    let i ← childIndex a
    let j ← childIndex b
    let children := Function.update (fun _ => Node.null) i (.short nodeRest nodeVal newFlag)
    some (.full (Function.update children j (.short keyRest value newFlag)) newFlag)
  | _, _ => none

/-- `Trie::Insert(n, prefix, key, value)` for a value node; `prefix` is passed along and not used. -/
def insertNode (env : TrieEnv) (value : Str) : ℕ → Node → Str → Option ReturnVal
  | 0, _, _ => none
  | _ + 1, .null, key => some ⟨true, .short key (.value value) newFlag⟩
  | fuel + 1, .short nodeKey nodeVal nodeFlags, key =>
    let matchlen := prefixLen key nodeKey
    if matchlen = nodeKey.length then do
      let r ← insertNode env value fuel nodeVal (key.drop matchlen)
      if r.dirty then some ⟨true, .short nodeKey r.node newFlag⟩
      else some ⟨false, .short nodeKey nodeVal nodeFlags⟩
    else do
      let branch ← splitShort matchlen nodeKey nodeVal key (.value value)
      if matchlen = 0 then some ⟨true, branch⟩
      else some ⟨true, .short (nodeKey.take matchlen) branch newFlag⟩
  | _ + 1, .full _ _, [] => none
  | fuel + 1, .full children flags, c :: rest => do
    let i ← childIndex c
    let r ← insertNode env value fuel (children i) rest
    if r.dirty then some ⟨true, .full (Function.update children i r.node) newFlag⟩
    else some ⟨false, .full children flags⟩
  | fuel + 1, .hash data, key => do
    let rn ← descendKey env data
    let r ← insertNode env value fuel rn key
    if r.dirty then some ⟨true, r.node⟩ else some ⟨false, rn⟩
  | _ + 1, .value data, key =>
    if key = [] then some ⟨data ≠ value, .value value⟩ else some ⟨true, .null⟩

/-- `Trie::Update`: the root afterwards; an empty value is ignored. -/
def trieUpdate (env : TrieEnv) (root : Node) (key value : Str) : Option Node :=
  if value.length ≠ 0 then
    (insertNode env value (walkBound (wapperKey key)) root (wapperKey key)).map ReturnVal.node
  else some root

/-! ### Save

    `sha` stands for `Getsha256hash`. -/

section Save

variable (sha : Str → Str) (c : Codec)

/-- `Trie::ToHash`. -/
def toHash (n : Node) : Str := sha (hexEncode c n)

/-- `Trie::hash`: the node with the missing hashes filled in, and the node standing for it. A null
    child of a full node stays null. -/
def hashNode : Node → Node × Node
  | .short nodeKey nodeVal nodeFlags =>
    if nodeFlags.hash ≠ [] then (.short nodeKey nodeVal nodeFlags, .hash nodeFlags.hash)
    else
      -- the child's hash is cached in the child only: the text hashed holds the child in full
      let child := if nodeVal.isLoaded then (hashNode nodeVal).1 else nodeVal
      let hashed := toHash sha c (.short nodeKey child nodeFlags)
      (.short nodeKey child { nodeFlags with hash := hashed }, .hash hashed)
  | .full children flags =>
    if flags.hash ≠ [] then (.full children flags, .hash flags.hash)
    else
      let collapsed := fun i => if i = 16 then .null else (hashNode (children i)).2
      let hashed := toHash sha c (.full collapsed newFlag)
      (.full (fun i => if i = 16 then children i else (hashNode (children i)).1)
        { flags with hash := hashed }, .hash hashed)
  | n => (n, n)

/-- The texts handed to `Getsha256hash` by `hash`. -/
def hashedTexts : Node → List Str
  | .short nodeKey nodeVal nodeFlags =>
    if nodeFlags.hash ≠ [] then []
    else
      let child := if nodeVal.isLoaded then (hashNode sha c nodeVal).1 else nodeVal
      (if nodeVal.isLoaded then hashedTexts nodeVal else [])
        ++ [hexEncode c (.short nodeKey child nodeFlags)]
  | .full children flags =>
    if flags.hash ≠ [] then []
    else
      let collapsed := fun i => if i = 16 then .null else (hashNode sha c (children i)).2
      (List.ofFn fun i => if i = 16 then [] else hashedTexts (children i)).flatten
        ++ [hexEncode c (.full collapsed newFlag)]
  | _ => []

/-- `Trie::Commit` with `Trie::Store`: the hash that replaces a node, and the entries written to
    `dirtyHash` in order. -/
def commit : Node → Node × List (Str × Str)
  | .short nodeKey nodeVal nodeFlags =>
    if nodeFlags.dirty = false ∧ nodeFlags.hash ≠ [] then (.hash nodeFlags.hash, [])
    else
      let child := if nodeVal.isFull then commit nodeVal else (nodeVal, [])
      (.hash nodeFlags.hash,
        child.2 ++ [(nodeFlags.hash, hexEncode c (.short nodeKey child.1 nodeFlags))])
  | .full children flags =>
    if flags.dirty = false ∧ flags.hash ≠ [] then (.hash flags.hash, [])
    else
      let hashedKids := fun i => if i = 16 then children i else (commit (children i)).1
      (.hash flags.hash, (List.ofFn fun i => if i = 16 then [] else (commit (children i)).2).flatten
        ++ [(flags.hash, hexEncode c (.full hashedKids flags))])
  | .hash data => (.hash data, [])
  | _ => (.null, [])

/-- A `std::map` with its entries, `dirtyHash[hash] = data`. -/
def setEntry (entries : List (Str × Str)) (entry : Str × Str) : List (Str × Str) :=
  entries.filter (fun e => e.1 ≠ entry.1) ++ [entry]

/-- The trie object: its root and the texts of the new nodes. -/
structure Trie where
  root : Node
  dirtyHash : List (Str × Str)

/-- `Trie::Save`. -/
def Trie.save (t : Trie) : Trie :=
  if t.root.isNull then t
  else
    let r := commit c (hashNode sha c t.root).1
    ⟨r.1, r.2.foldl setEntry t.dirtyHash⟩

end Save

/-- What `GetBlockStorage` hands out: the root pair and the other new pairs. -/
structure BlockStorage where
  rootHash : Str × Str
  dirtyHash : List (Str × Str)
  deriving DecidableEq, Repr

/-- `Trie::GetBlockStorage` after `Save`, on fresh arguments; the root's entry leaves the trie's own
    map. `none` where the source casts a root that is not a hash or reads the end of the map. -/
def Trie.getBlockStorage (t : Trie) : Option (BlockStorage × Trie) :=
  match t.root with
  | .null => some (⟨([], []), []⟩, t)
  | .hash data =>
    if t.dirtyHash = [] then some (⟨(data, []), []⟩, t)
    else (t.dirtyHash.find? fun e => e.1 = data).map fun e =>
      let rest := t.dirtyHash.filter fun e => e.1 ≠ data
      (⟨e, rest⟩, { t with dirtyHash := rest })
  | _ => none

/-- What `Evmone::GetStorage` writes for one account: the new root hash (`none` when the account is
    skipped) and the pairs for the store. -/
def storageEntries (contractAddr : Str) (s : BlockStorage) : Option Str × List (Str × Str) :=
  if s.rootHash.1 = [] then (none, [])
  else (some s.rootHash.1,
    (if s.rootHash.2 ≠ [] then [(mptKey contractAddr s.rootHash.1, s.rootHash.2)] else [])
      ++ s.dirtyHash.map fun e => (mptKey contractAddr e.1, e.2))

end Tfs.Mpt
