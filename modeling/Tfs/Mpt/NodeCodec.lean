import Tfs.Mpt.Node

/-! Encoding a node and reading it back (`Trie::Encode` and `Trie::DecodeNode` in `mpt/trie.cpp`).

    A node is encoded when its children are hashes already: `Store` writes leaves, extensions above a
    hash, and full nodes whose children are hashes or missing. A child and a value are written as an
    item inside a string, so their bytes are wrapped twice, and reading tells the cases apart by the
    last character of the key and by the length of the wrapped item. -/

namespace Tfs.Mpt
open Tfs.Rlp

/-- The nodes that `Store` encodes. -/
inductive Storable : Node → Prop
  | leaf {nodeKey data : Str} {flags : NodeFlag} : hasTerm nodeKey → data ≠ [] →
      Storable (.short nodeKey (.value data) flags)
  | ext {nodeKey hash : Str} {flags : NodeFlag} : term ∉ nodeKey → hash.length = 64 →
      Storable (.short nodeKey (.hash hash) flags)
  | full {children : Fin 17 → Node} {flags : NodeFlag} :
      (∀ i, children i = .null ∨ ∃ hash, hash.length = 64 ∧ children i = .hash hash) →
      children 16 = .null → Storable (.full children flags)

/-- The node with other flags. -/
def Node.withFlag (flags : NodeFlag) : Node → Node
  | .short nodeKey nodeVal _ => .short nodeKey nodeVal flags
  | .full children _ => .full children flags
  | n => n

variable {c : Codec}

/-- A short or full node is written as a list of strings, and read as the same list. -/
theorem parse_encode (hc : c.Lawful) {n : Node} (hn : n.isLoaded) :
    c.parse (c.out (encode c n)) = some (encode c n) := by
  cases n with
  | null => cases hn
  | value data => cases hn
  | hash data => cases hn
  | short nodeKey nodeVal flags => exact hc.parse_list 2 _
  | full children flags => exact hc.parse_list 17 _

theorem Storable.isLoaded {n : Node} (hn : Storable n) : n.isLoaded := by
  cases hn <;> rfl

/-- A node whose key has no terminator is no leaf. -/
theorem hasTerm_of_notMem {nodeKey : Str} (h : term ∉ nodeKey) : hasTerm nodeKey = false := by
  rw [hasTerm, decide_eq_false_iff_not]
  exact fun hlast => h (List.mem_of_getLast? hlast)

/-- Decoding the encoding of a node that is stored gives the node, with the hash it was asked for. -/
theorem decodeNode_encode (c : Codec) (hc : c.Lawful) (hash : Str) (n : Node) (hn : Storable n) :
    (c.parse (c.out (encode c n))).map (decodeNode c hash) = some (n.withFlag ⟨hash, false⟩) := by
  rw [parse_encode hc hn.isLoaded, Option.map_some]
  congr 1
  cases hn with
  | leaf hterm _ => exact decodeNode_leaf hc hterm _
  | ext hterm hlen => exact decodeNode_ext hc (hasTerm_of_notMem hterm) hlen _
  | full hchildren h16 => exact decodeNode_full hc hchildren h16 _

/-- A leaf with a value of one byte, one with a value of 56 bytes, an extension with an empty key, and a
    full node with two children. -/
theorem decodeNode_encode_sample :
    let hashOf := fun b : UInt8 => Node.hash (List.replicate 64 b)
    ∀ n ∈ [Node.short (str "z") (.value [7]) newFlag,
        .short (str "az") (.value (List.replicate 56 200)) newFlag,
        .short [] (hashOf 97) newFlag,
        .full (fun i => if i = 3 then hashOf 98 else if i = 15 then hashOf 99 else .null) newFlag],
      (rlp.parse (rlp.out (encode rlp n))).map (decodeNode rlp (str "h"))
        = some (n.withFlag ⟨str "h", false⟩) := by
  intro hashOf n hn
  refine decodeNode_encode rlp rlp_lawful (str "h") n ?_
  simp only [List.mem_cons, List.not_mem_nil, or_false] at hn
  rcases hn with rfl | rfl | rfl | rfl
  · exact .leaf (by decide) (by decide)
  · exact .leaf (by decide) (by decide)
  · exact .ext (by decide) (by decide)
  · refine .full (fun i => ?_) rfl
    split_ifs
    · exact .inr ⟨_, List.length_replicate, rfl⟩
    · exact .inr ⟨_, List.length_replicate, rfl⟩
    · exact .inl rfl

end Tfs.Mpt
