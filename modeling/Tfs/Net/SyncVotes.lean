import Tfs.Proto
import Tfs.Lib.Tally
import Tfs.Lib.Unique

/-! How often a node was named (`UnregisterNode::StartSyncNode` in `net/unregister_node.cpp`).

    Every responder lists the nodes it is connected to. `std::sort` gets a comparison that says
    whether two nodes are equal, which is no order: the standard promises nothing of the result, and
    here nothing more is taken from it than that it is a rearrangement. -/

namespace Tfs.Net.SyncVotes

open Tfs.SortedMap Tfs.Unique

variable {Addr : Type} [LinearOrder Addr]

/-! ### Answers -/

/-- `NodeInfo`, as far as it is read. -/
structure NodeInfo (Addr : Type) where
  addr : Addr
  publicIp : ℕ
  height : UInt32
  deriving DecidableEq

/-- `SyncNodeAck`, as far as it is read. -/
structure SyncNodeAck (Addr : Type) where
  nodes : List (NodeInfo Addr)
  sign : CSign
  ids : Addr
  msgId : Str
  deriving DecidableEq

/-- `Node`, as far as it is filled in. -/
structure Node (Addr : Type) where
  address : Addr
  listenIp : UInt32
  listenPort : UInt32
  publicIp : ℕ
  height : UInt32
  deriving DecidableEq

/-- What is used of protobuf, of OpenSSL and of the constants, and the node itself. A signature is over
    the whole of a message, so messages are those of protobuf, and `fields` are those that are read. -/
structure SyncEnv (Addr : Type) where
  PKey : Type
  Message : Type
  fields : Message → SyncNodeAck Addr
  clearSign : Message → Message
  parseFromString : Str → Option Message
  serializeAsString : Message → Str
  getsha256hash : Str → Str
  getEDPubKeyByBytes : Str → Option PKey
  ed25519VerifyMessage : Str → PKey → Str → Bool
  kServerMainPort : UInt32
  selfAddress : Addr
  selfListenIp : UInt32

variable (env : SyncEnv Addr)

/-- The lambda `VerifySign`. -/
def verifySign (sign : CSign) (serHash : Str) : ℤ :=
  if sign.sign.length = 0 ∨ sign.pub.length = 0 then -1
  else if serHash.length = 0 then -2
  else
    match env.getEDPubKeyByBytes sign.pub with
    | none => -3
    | some eckey => if env.ed25519VerifyMessage serHash eckey sign.sign then 0 else -4

/-- An answer that is read and carries a signature of itself. -/
def readAck (retData : Str) : Option (SyncNodeAck Addr) :=
  match env.parseFromString retData with
  | none => none
  | some message =>
    let syncNodeAck := env.fields message
    let serVinHash := env.getsha256hash (env.serializeAsString (env.clearSign message))
    if verifySign env syncNodeAck.sign serVinHash ≠ 0 then none else some syncNodeAck

/-- The nodes of an answer, without the node itself. -/
def targetAddrList (syncNodeAck : SyncNodeAck Addr) : List (Node Addr) :=
  syncNodeAck.nodes.filterMap fun nodeinfo =>
    if nodeinfo.addr = env.selfAddress then none
    else some
      { address := nodeinfo.addr, listenIp := env.selfListenIp, listenPort := env.kServerMainPort
        publicIp := nodeinfo.publicIp, height := nodeinfo.height }

/-! ### The tally -/

/-- `syncNodeCount[node]++`: the key is the node that came first. The count is an `int`, which
    `countOf_lt` bounds. -/
def countNode (syncNodeCount : SortedMap Addr (Node Addr × ℕ)) (node : Node Addr) :
    SortedMap Addr (Node Addr × ℕ) :=
  syncNodeCount.upsert node.address fun entry => ((entry.getD (node, 0)).1, (entry.getD (node, 0)).2 + 1)

/-- What `StartSyncNode` hands on: the counts to `splitAndInsertData`, the nodes by their address to
    `Register`. -/
structure SyncResult (Addr : Type) [LT Addr] where
  syncNodeCount : SortedMap Addr (Node Addr × ℕ)
  nodeMap : SortedMap ℕ (Node Addr)

/-- `UnregisterNode::StartSyncNode` on the answers; `sort` is `std::sort` with `compareStructs`. -/
def startSyncNode (sort : List (Node Addr) → List (Node Addr)) (returnDatas : List Str) : SyncResult Addr :=
  let acks := returnDatas.filterMap (readAck env)
  let nodeMap := insertEach (fun found node => found.getD node) empty
    ((acks.flatMap (targetAddrList env)).map fun node => (node.publicIp, node))
  let vrfNodelist := insertEach (fun _ nodes => nodes) empty (acks.map fun ack =>
    (ack.ids, targetAddrList env ack))
  let syncNodes := vrfNodelist.entries.flatMap fun item => unique Node.address (sort item.2)
  { syncNodeCount := syncNodes.foldl countNode empty, nodeMap := nodeMap }

/-- The count of a node. -/
def SyncResult.countOf (result : SyncResult Addr) (address : Addr) : ℕ :=
  ((result.syncNodeCount.find address).map Prod.snd).getD 0

theorem find_foldl_countNode (a : Addr) : ∀ (nodes : List (Node Addr)) (m : SortedMap Addr (Node Addr × ℕ)),
    (((nodes.foldl countNode m).find a).map Prod.snd).getD 0 =
      ((m.find a).map Prod.snd).getD 0 + nodes.countP (·.address = a)
  | [], m => by simp
  | node :: nodes, m => by
    rw [List.foldl_cons, find_foldl_countNode a nodes, countNode, find_upsert, List.countP_cons]
    by_cases h : node.address = a
    · subst h
      cases hfind : m.find node.address with
      | none => simp; omega
      | some entry => simp; omega
    · rw [if_neg (Ne.symm h)]
      simp [h]

/-! ### Responders -/

/-- The answer of a responder: the one that came last. -/
def answerOf (returnDatas : List Str) (responder : Addr) : Option (SyncNodeAck Addr) :=
  ((returnDatas.filterMap (readAck env)).filter (·.ids = responder)).getLast?

/-- The responders. -/
def responders (returnDatas : List Str) : List Addr :=
  ((returnDatas.filterMap (readAck env)).map (·.ids)).dedup

/-- The responders whose answer lists the node. -/
def listedBy (returnDatas : List Str) (address : Addr) : List Addr :=
  (responders env returnDatas).filter fun responder =>
    (answerOf env returnDatas responder).any fun ack => ack.nodes.any (·.addr = address)

/-- The count of every other node is the number of the responders that list it, however `std::sort`
    leaves the lists. -/
def VotesCounted (returnDatas : List Str) : Prop :=
  ∀ sort : List (Node Addr) → List (Node Addr), (∀ nodes, (sort nodes).Perm nodes) →
    ∀ address, address ≠ env.selfAddress →
      (startSyncNode env sort returnDatas).countOf address = (listedBy env returnDatas address).length

/-- The other nodes that an answer lists. -/
def otherAddrs (ack : SyncNodeAck Addr) : List Addr := (ack.nodes.map (·.addr)).filter (· ≠ env.selfAddress)

/-! ### What is counted -/

variable {env}

/-- The lists of nodes by responder, as they are gathered. -/
def gathered (env : SyncEnv Addr) (returnDatas : List Str) : SortedMap Addr (List (Node Addr)) :=
  insertEach (fun _ nodes => nodes) empty
    ((returnDatas.filterMap (readAck env)).map fun ack => (ack.ids, targetAddrList env ack))

/-- Each responder's list is that of its last answer. -/
theorem find_gathered (returnDatas : List Str) (responder : Addr) :
    (gathered env returnDatas).find responder =
    (answerOf env returnDatas responder).map (targetAddrList env) := by
  rw [gathered, find_insertEach_last, answerOf,
    valuesOf_map (p := fun ack => decide (ack.ids = responder)) _ fun ack => decide_eq_true_iff,
      List.getLast?_map]

theorem map_targetAddrList (ack : SyncNodeAck Addr) :
    (targetAddrList env ack).map (·.address) = otherAddrs env ack := by
  rw [targetAddrList, otherAddrs, List.map_filterMap, List.filter_map, ← List.filterMap_eq_map,
    ← List.filterMap_eq_filter,
    List.filterMap_filterMap]
  refine List.filterMap_congr fun nodeinfo _ => ?_
  by_cases h : nodeinfo.addr = env.selfAddress <;> simp [h, Option.guard]

theorem mem_gathered {returnDatas : List Str} {item : Addr × List (Node Addr)} :
    item ∈ (gathered env returnDatas).entries ↔
      ∃ ack, answerOf env returnDatas item.1 = some ack ∧ targetAddrList env ack = item.2 := by
  rw [mem_iff_find, find_gathered, Option.map_eq_some_iff]

/-- The counts come from the kept nodes of each list. -/
theorem countOf_startSyncNode (sort : List (Node Addr) → List (Node Addr)) (returnDatas : List Str)
    (address : Addr) :
    (startSyncNode env sort returnDatas).countOf address =
      ((gathered env returnDatas).entries.map fun item =>
        (unique Node.address (sort item.2)).countP (·.address = address)).sum := by
  rw [SyncResult.countOf, startSyncNode, find_foldl_countNode, List.countP_flatMap]
  exact Nat.zero_add _

/-- The counts stay within an `int` while fewer than 2^31 nodes are gathered. -/
theorem countOf_lt {sort : List (Node Addr) → List (Node Addr)} (hsort : ∀ nodes, (sort nodes).Perm nodes)
    {returnDatas : List Str}
    (h : ((gathered env returnDatas).entries.map fun item => item.2.length).sum < 2 ^ 31)
    (address : Addr) : (startSyncNode env sort returnDatas).countOf address < 2 ^ 31 := by
  rw [countOf_startSyncNode]
  refine lt_of_le_of_lt (List.sum_le_sum fun item _ => ?_) h
  calc (unique Node.address (sort item.2)).countP (·.address = address)
      ≤ (unique Node.address (sort item.2)).length := List.countP_le_length
    _ ≤ (sort item.2).length := (List.destutter_sublist _ _).length_le
    _ = item.2.length := (hsort item.2).length_eq

/-- The responders that list a node are those in whose list it is. -/
theorem listedBy_perm (returnDatas : List Str) {address : Addr} (h : address ≠ env.selfAddress) :
    (listedBy env returnDatas address).Perm
      (((gathered env returnDatas).entries.filter fun item =>
        address ∈ item.2.map (·.address)).map Prod.fst) := by
  have hkeys : ((gathered env returnDatas).entries.map Prod.fst).Nodup := by
    rw [List.Nodup, List.pairwise_map]
    exact (gathered env returnDatas).sorted.imp fun hlt => hlt.ne
  have hnodup : (listedBy env returnDatas address).Nodup := (List.nodup_dedup _).filter _
  refine (List.perm_ext_iff_of_nodup hnodup (hkeys.sublist (List.filter_sublist.map _))).mpr ?_
  intro responder
  have hlisted : ∀ ack : SyncNodeAck Addr, address ∈ (targetAddrList env ack).map (·.address) ↔
    ack.nodes.any (·.addr = address) := by
    intro ack
    rw [map_targetAddrList, otherAddrs]
    simp [h]
  constructor
  · intro hin
    obtain ⟨-, hany⟩ := List.mem_filter.mp hin
    cases hack : answerOf env returnDatas responder with
    | none =>
      rw [hack] at hany
      cases hany
    | some ack =>
      rw [hack, Option.any_some] at hany
      refine List.mem_map.mpr ⟨(responder, targetAddrList env ack), List.mem_filter.mpr ⟨?_, ?_⟩, rfl⟩
      · exact mem_gathered.mpr ⟨ack, hack, rfl⟩
      · exact decide_eq_true ((hlisted ack).mpr hany)
  · intro hin
    obtain ⟨item, hitem, rfl⟩ := List.mem_map.mp hin
    obtain ⟨hentry, haddr⟩ := List.mem_filter.mp hitem
    obtain ⟨ack, hack, htargets⟩ := mem_gathered.mp hentry
    refine List.mem_filter.mpr ⟨?_, ?_⟩
    · have hmem := List.mem_filter.mp (List.mem_of_getLast? hack)
      rw [responders, List.mem_dedup, List.mem_map]
      exact ⟨ack, hmem.1, of_decide_eq_true hmem.2⟩
    · rw [hack, Option.any_some]
      exact (hlisted ack).mp (htargets ▸ of_decide_eq_true haddr)

/-- A count is a sum of ones. -/
theorem countP_eq_sum {β : Type} (p : β → Prop) [DecidablePred p] (l : List β) :
    l.countP (fun x => p x) = (l.map fun x => if p x then 1 else 0).sum := by
  induction l with
  | nil => rfl
  | cons x l ih => simp [List.countP_cons, ih, add_comm]

theorem length_listedBy (returnDatas : List Str) {address : Addr} (h : address ≠ env.selfAddress) :
    (listedBy env returnDatas address).length =
      ((gathered env returnDatas).entries.map fun item =>
        if address ∈ item.2.map (·.address) then 1 else 0).sum := by
  rw [(listedBy_perm returnDatas h).length_eq, List.length_map, ← List.countP_eq_length_filter]
  exact countP_eq_sum (fun item : Addr × List (Node Addr) => address ∈ item.2.map (·.address)) _

/-- Where no term is less than its counterpart and the sums are equal, the terms are. -/
theorem eq_of_sum_eq {β : Type} {f g : β → ℕ} : ∀ {l : List β}, (∀ x ∈ l, g x ≤ f x) →
    (l.map f).sum = (l.map g).sum →
    ∀ x ∈ l, f x = g x
  | [], _, _ => nofun
  | y :: l, hle, hsum => by
    obtain ⟨hy, hl⟩ := List.forall_mem_cons.mp hle
    have hrest := List.sum_le_sum hl
    rw [List.map_cons, List.map_cons, List.sum_cons, List.sum_cons] at hsum
    refine List.forall_mem_cons.mpr ⟨by omega, eq_of_sum_eq hl (by omega)⟩

/-- How often a node is kept of a list of its own. -/
def keptOf (address : Addr) (nodes : List (Node Addr)) : ℕ :=
  (unique Node.address nodes).countP (·.address = address)

/-- Where the counts are right however the lists are left, each list by itself is counted right. -/
theorem VotesCounted.keptOf_eq {returnDatas : List Str} (h : VotesCounted env returnDatas)
    {item : Addr × List (Node Addr)}
    (hitem : item ∈ (gathered env returnDatas).entries) {nodes : List (Node Addr)}
    (hperm : nodes.Perm item.2) (a : Addr) :
    keptOf a nodes = if a ∈ item.2.map (·.address) then 1 else 0 := by
  have hmem : a ∈ nodes.map (·.address) ↔ a ∈ item.2.map (·.address) := (hperm.map _).mem_iff
  by_cases hself : a = env.selfAddress
  · -- the node itself is in no list
    obtain ⟨ack, -, htargets⟩ := mem_gathered.mp hitem
    have hnot : a ∉ item.2.map (·.address) := by
      rw [← htargets, map_targetAddrList, hself, otherAddrs]
      simp
    rw [if_neg hnot, keptOf, List.countP_eq_zero]
    intro node hnode heq
    have hin := (List.destutter_sublist _ _).mem hnode
    exact hnot (hmem.mp (List.mem_map.mpr ⟨node, hin, of_decide_eq_true heq⟩))
  · let sort : List (Node Addr) → List (Node Addr) := fun list => if list = item.2 then nodes else list
    have hsort : ∀ list, (sort list).Perm list := by
      intro list
      by_cases heq : list = item.2
      · simpa [sort, heq] using hperm
      · simp [sort, heq]
    have hsum := h sort hsort a hself
    rw [countOf_startSyncNode, length_listedBy returnDatas hself] at hsum
    have hterm := eq_of_sum_eq (fun x _ => ?_) hsum item hitem
    · simpa [sort, keptOf] using hterm
    · refine le_of_eq_of_le ?_ (le_countP_unique Node.address a (sort x.2))
      exact if_congr ((hsort x.2).map _).mem_iff.symm rfl rfl

/-- The counts are right, however the lists are left, exactly when every answer lists no other node
    twice, or one other node only. -/
theorem votes_counted_iff (env : SyncEnv Addr) (returnDatas : List Str) :
    VotesCounted env returnDatas ↔ ∀ responder ack, answerOf env returnDatas responder = some ack →
      (otherAddrs env ack).Nodup ∨ ∀ a ∈ otherAddrs env ack, ∀ b ∈ otherAddrs env ack, a = b := by
  have hkept : ∀ ack : SyncNodeAck Addr, (∀ nodes : List (Node Addr),
    nodes.Perm (targetAddrList env ack) → ∀ a,
      keptOf a nodes = if a ∈ (targetAddrList env ack).map (·.address) then 1 else 0) ↔
      (otherAddrs env ack).Nodup ∨ ∀ a ∈ otherAddrs env ack, ∀ b ∈ otherAddrs env ack, a = b := by
    intro ack
    rw [← map_targetAddrList, List.forall_mem_map]
    simp only [List.forall_mem_map]
    exact kept_once_iff
  constructor
  · intro hcounted responder ack hack
    have hentry : (responder, targetAddrList env ack) ∈ (gathered env returnDatas).entries :=
      mem_gathered.mpr ⟨ack, hack, rfl⟩
    exact (hkept ack).mp fun nodes hperm a => hcounted.keptOf_eq hentry hperm a
  · intro h sort hsort address haddr
    rw [countOf_startSyncNode, length_listedBy returnDatas haddr]
    refine congrArg List.sum (List.map_congr_left fun item hitem => ?_)
    obtain ⟨ack, hack, htargets⟩ := mem_gathered.mp hitem
    have hsorted := hsort item.2
    rw [← htargets] at hsorted ⊢
    exact (hkept ack).mpr (h _ ack hack) _ hsorted address

/-! ### A node that is counted twice -/

/-- `std::sort` of libstdc++ up to sixteen elements, one element: it goes to the front if it is less
    than the first, else back over those it is less than. -/
def insertOne (comp : Node Addr → Node Addr → Bool) (sorted : List (Node Addr)) (val : Node Addr) :
    List (Node Addr) :=
  if (sorted.head?).any (comp val) then val :: sorted
  else (sorted.rdropWhile (comp val)) ++ val :: sorted.rtakeWhile (comp val)

/-- `std::sort` of libstdc++ up to sixteen elements. -/
def insertionSort (comp : Node Addr → Node Addr → Bool) (nodes : List (Node Addr)) : List (Node Addr) :=
  nodes.foldl (insertOne comp) []

/-- `compareStructs`. -/
def compareStructs (x1 x2 : Node Addr) : Bool := x1.address = x2.address

omit [LinearOrder Addr] in
theorem insertOne_perm (comp : Node Addr → Node Addr → Bool) (sorted : List (Node Addr)) (val : Node Addr) :
    (insertOne comp sorted val).Perm (val :: sorted) := by
  rw [insertOne]
  split_ifs
  · rfl
  · refine List.perm_middle.trans (List.Perm.cons val ?_)
    rw [List.rdropWhile_append_rtakeWhile]

omit [LinearOrder Addr] in
theorem insertionSort_perm (comp : Node Addr → Node Addr → Bool) (nodes : List (Node Addr)) :
    (insertionSort comp nodes).Perm nodes := by
  have hfold : ∀ (nodes sorted : List (Node Addr)),
    (nodes.foldl (insertOne comp) sorted).Perm (sorted ++ nodes) := by
    intro nodes
    induction nodes with
    | nil => simp
    | cons val nodes ih =>
      intro sorted
      refine (ih _).trans (((insertOne_perm comp sorted val).append_right nodes).trans ?_)
      exact List.perm_middle.symm
  exact hfold nodes []

/-- An answer of 9 that lists 1, 2, 3 and 2 again. -/
def sampleAck : SyncNodeAck ℕ where
  nodes := [⟨1, 1, 0⟩, ⟨2, 2, 0⟩, ⟨3, 3, 0⟩, ⟨2, 2, 0⟩]
  sign := ⟨[1], [1]⟩
  ids := 9
  msgId := []

/-- A node that reads this answer and takes its signature. -/
def sampleEnv : SyncEnv ℕ where
  PKey := Unit
  Message := SyncNodeAck ℕ
  fields := fun ack => ack
  clearSign := fun ack => { ack with sign := ⟨[], []⟩ }
  parseFromString := fun data => if data = [1] then some sampleAck else none
  serializeAsString := fun ack => if ack = { sampleAck with sign := ⟨[], []⟩ } then [2] else []
  getsha256hash := fun data => data
  getEDPubKeyByBytes := fun pub => if pub = [1] then some () else none
  ed25519VerifyMessage := fun hash _ sign => hash = [2] ∧ sign = [1]
  kServerMainPort := 11187
  selfAddress := 0
  selfListenIp := 0

/-- One responder, and yet the node 2 is counted twice. -/
theorem node_counted_twice : ¬ ∀ (env : SyncEnv ℕ) (returnDatas : List Str),
    VotesCounted env returnDatas := by
  intro h
  have hcount := h sampleEnv [[1]] (insertionSort compareStructs) (insertionSort_perm _) 2 (by decide)
  revert hcount
  decide

end Tfs.Net.SyncVotes
