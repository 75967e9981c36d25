import Tfs.Lib.Rlp

/-! Nodes of the contract storage trie and their encoding (`mpt/node.h`, the codec part of
    `mpt/trie.cpp`).

    A node is a value, a short node (a piece of key above one child), a full node (17 children, of
    which the first 16 are used), a hash standing for a stored node, or a null pointer. Nodes are
    reached through one parent only, so the in-place updates of the source are functional updates
    here. -/

namespace Tfs.Mpt
open Tfs.Rlp

/-- A full node has a first child. -/
instance instNeZeroChildren : NeZero 17 := ⟨by decide⟩

/-- `NodeFlag`: the cached hash (empty when there is none) and whether the node is new. -/
structure NodeFlag where
  hash : Str
  dirty : Bool
  deriving DecidableEq, Repr

/-- `nodePtr`, with the null pointer as a constructor. -/
inductive Node where
  | null
  | value (data : Str)
  | short (nodeKey : Str) (nodeVal : Node) (nodeFlags : NodeFlag)
  | full (children : Fin 17 → Node) (flags : NodeFlag)
  | hash (data : Str)

/-- `n == NULL`. -/
def Node.isNull : Node → Bool
  | .null => true
  | _ => false

/-- A short or full node, not just its hash. -/
def Node.isLoaded : Node → Bool
  | .short _ _ _ => true
  | .full _ _ => true
  | _ => false

/-- `n->name == typeid(FullNode).name()`. -/
def Node.isFull : Node → Bool
  | .full _ _ => true
  | _ => false

theorem Node.eq_null {n : Node} (h : n.isNull = true) : n = .null := by
  cases n <;> first | rfl | cases h

theorem Node.isNull_of_isLoaded {n : Node} (h : n.isLoaded = true) : n.isNull = false := by
  cases n <;> first | rfl | cases h

theorem Node.isLoaded_of_isFull {n : Node} (h : n.isFull = true) : n.isLoaded = true := by
  cases n <;> first | rfl | cases h

/-- `Trie::newFlag`. -/
def newFlag : NodeFlag := ⟨[], true⟩

/-! ### Keys -/

/-- The terminator `z`. -/
def term : UInt8 := 122

/-- `Trie::WapperKey`: the last character is doubled and the terminator added. -/
def wapperKey (key : Str) : Str := key ++ [key.getLastD 0, term]

/-- `Trie::HasTerm`. -/
def hasTerm (s : Str) : Bool := s.getLast? = some term

/-- `Trie::PrefixLen`. -/
def prefixLen : Str → Str → ℕ
  | a :: as, b :: bs => if a = b then prefixLen as bs + 1 else 0
  | _, _ => 0

/-- `Trie::Toint`. -/
def toint (c : UInt8) : ℤ := if 48 ≤ c ∧ c ≤ 57 then c.toNat - 48 else c.toNat - 87

/-- The element `children[Toint(c)]`; `none` outside the array. -/
def childIndex (c : UInt8) : Option (Fin 17) :=
  if h : 0 ≤ toint c ∧ toint c < 17 then some ⟨(toint c).toNat, by omega⟩ else none

/-! ### Encoding -/

/-- `Trie::Encode`. A child is appended as a string holding its own encoding; a null child is the
    empty string. `Encode` is not called on a null pointer. -/
def encode (c : Codec) : Node → Item
  | .null => .data []
  | .value data => .data data
  | .hash data => .data data
  | .short nodeKey nodeVal _ => .list 2 fun i => .data (![nodeKey, c.out (encode c nodeVal)] i)
  | .full children _ => .list 17 fun i =>
      .data (if (children i).isNull then [] else c.out (encode c (children i)))

/-- The text that is hashed and stored: the encoding in hexadecimal. -/
def hexEncode (c : Codec) (n : Node) : Str := toHex (c.out (encode c n))

/-! ### Decoding -/

/-- `r[0]`, where `r` may be a string holding an encoding. -/
def Item.at0 (c : Codec) : Item → Item
  | .data bytes => c.item0 bytes
  | .list n items => if h : 0 < n then items ⟨0, h⟩ else .data []

/-- `RLP::isEmpty`. -/
def Item.isEmpty : Item → Bool
  | .data bytes => bytes.isEmpty
  | .list n _ => n = 0

/-- `Trie::DecodeShort`, with `ref` = `DecodeRef(r[1])`. -/
def decodeShort (c : Codec) (hash : Str) (r0 r1 : Item) (ref : Node) : Node :=
  if hasTerm r0.toStr then .short r0.toStr (.value (Item.at0 c r1).toStr) ⟨hash, false⟩
  else .short r0.toStr ref ⟨hash, false⟩

/-- `Trie::DecodeFull`, with `refs i` = `DecodeRef(r[i])`. -/
def decodeFull (hash : Str) (r : Fin 17 → Item) (refs : Fin 17 → Node) : Node :=
  .full (fun i => if i = 16 ∨ Item.isEmpty (r i) then .null else refs i) ⟨hash, false⟩

/-- `Trie::DecodeNode` on a list. -/
def decodeList (c : Codec) (hash : Str) (n : ℕ) (r : Fin n → Item) (refs : Fin n → Node) : Node :=
  if h : n = 2 then decodeShort c hash (r ⟨0, by omega⟩) (r ⟨1, by omega⟩) (refs ⟨1, by omega⟩)
  else if h : n = 17 then
    decodeFull hash (fun i => r ⟨i, by omega⟩) fun i => refs ⟨i, by omega⟩
  else .null

/-- `Trie::DecodeRef`: a string of 66 bytes is the encoding of a hash. -/
def decodeRef (c : Codec) : Item → Node
  | .data bytes => if bytes.length = 66 then .hash (c.item0 bytes).toStr else .null
  | .list n items => decodeList c [] n items fun i => decodeRef c (items i)

/-- `Trie::DecodeNode`. -/
def decodeNode (c : Codec) (hash : Str) : Item → Node
  | .data _ => .null
  | .list n items => decodeList c hash n items fun i => decodeRef c (items i)

/-- What a trie reads from: its contract's address, the cache of the running block (empty when there
    is none) and the store. -/
structure TrieEnv where
  codec : Codec
  contractAddr : Str
  contractDataCache : StdMap Str Str
  mpt : StdMap Str Str

/-- The store key of a node. -/
def mptKey (contractAddr key : Str) : Str := contractAddr ++ str "_" ++ key

/-- The text found for a hash: the cache first, then the store; empty when neither has it. -/
def TrieEnv.mptValue (env : TrieEnv) (key : Str) : Str :=
  let cached := (env.contractDataCache (mptKey env.contractAddr key)).getD []
  if cached = [] then (env.mpt (mptKey env.contractAddr key)).getD [] else cached

/-- `Trie::DescendKey` (and `ResolveHash`); `none` where the RLP reader throws. -/
def descendKey (env : TrieEnv) (key : Str) : Option Node :=
  if env.mptValue key = [] then some .null
  else (env.codec.parse (fromHex (env.mptValue key))).map (decodeNode env.codec key)

/-! ### Reading a stored node back -/

variable {c : Codec}

theorem decodeNode_leaf (hc : c.Lawful) {hash k d : Str} (hk : hasTerm k) (fl : NodeFlag) :
    decodeNode c hash (encode c (.short k (.value d) fl)) = .short k (.value d) ⟨hash, false⟩ := by
  simp [encode, decodeNode, decodeList, decodeShort, Item.toStr, Item.at0, hk, hc.item0_data]

theorem decodeNode_ext (hc : c.Lawful) {hash k h : Str} (hk : hasTerm k = false)
    (hh : h.length = 64) (fl : NodeFlag) :
    decodeNode c hash (encode c (.short k (.hash h) fl)) = .short k (.hash h) ⟨hash, false⟩ := by
  simp [encode, decodeNode, decodeList, decodeShort, decodeRef, Item.toStr, hk, hc.item0_data,
    hc.out_length h hh]

theorem decodeNode_full (hc : c.Lawful) {hash : Str} {children : Fin 17 → Node}
    (hch : ∀ i, children i = .null ∨ ∃ h, h.length = 64 ∧ children i = .hash h)
    (h16 : children 16 = .null) (fl : NodeFlag) :
    decodeNode c hash (encode c (.full children fl)) = .full children ⟨hash, false⟩ := by
  have hkid : ∀ i, (if i = 16 ∨ Item.isEmpty
        (.data (if (children i).isNull then [] else c.out (encode c (children i)))) then .null
      else decodeRef c
        (.data (if (children i).isNull then [] else c.out (encode c (children i))))) = children i := by
    intro i
    rcases hch i with hi | ⟨h, hh, hi⟩
    · simp [hi, Node.isNull, Item.isEmpty]
    · have hne : i ≠ 16 := by
        rintro rfl
        rw [h16] at hi
        cases hi
      have hout := hc.out_ne_nil (.data h)
      simp [hi, Node.isNull, Item.isEmpty, hne, hout, encode, decodeRef, hc.out_length h hh,
        hc.item0_data, Item.toStr]
  simp only [encode, decodeNode, decodeList, decodeFull]
  rw [dif_neg (by decide), dif_pos trivial]
  congr 1
  funext i
  exact hkid i

end Tfs.Mpt
