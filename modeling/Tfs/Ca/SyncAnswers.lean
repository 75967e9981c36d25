import Tfs.Ca.SyncBlock
import Tfs.Ca.SumHash
import Tfs.Lib.Sorted

/-! The blocks that come in with the answers of other nodes (`SyncBlock::_GetFastSyncBlockData`,
    `_GetSyncBlockData` and `_GetFromZeroSyncBlockData` in `ca/sync_block.cpp`).

    A block names its own hash. The first two functions compute the hash of what came in and drop a
    block that names another one. The third only asks whether the hashes that the blocks name add up to
    the sum hash agreed upon before, and keeps the blocks: what a block contains is looked at by
    nobody. -/

namespace Tfs.Ca

/-! ### Blocks as they come in -/

/-- `message CBlock`: the whole message, and the fields of it that are looked at. -/
class BlockMessage (β : Type) where
  toCBlock : β → CBlock
  /-- `clear_hash` and `clear_sign` -/
  hashBlock : β → β

open BlockMessage

section Collect
variable {β : Type} [BlockMessage β]

/-- `CBlockCompare`. -/
def PeerBlockCompare (a b : β) : Prop := CBlockCompare (toCBlock a) (toCBlock b)

instance decidablePeerBlockCompare : DecidableRel (@PeerBlockCompare β _) :=
  fun _ _ => inferInstanceAs (Decidable (CBlockCompare _ _))

instance isTransPeerBlockCompare : IsTrans β PeerBlockCompare :=
  ⟨fun a b c => IsTrans.trans (r := CBlockCompare) (toCBlock a) (toCBlock b) (toCBlock c)⟩

/-- `std::map<uint64_t, std::set<CBlock, CBlockCompare>>`. -/
abbrev PeerBlockData (β : Type) [BlockMessage β] := SortedMap ℕ (StdSet (@PeerBlockCompare β _))

/-- The blocks, put one after the other into the map with `_AddBlockToMap`. -/
def collectBlocks (blocks : List β) : PeerBlockData β :=
  collectByKey (fun block => heightKey (toCBlock block)) PeerBlockCompare blocks

end Collect

/-- `message FastSyncBlock`. -/
structure FastSyncBlock where
  height : ℕ
  blocks : List Str
  deriving DecidableEq

/-- What the functions take from elsewhere: messages are taken apart and put together by protobuf. -/
structure SyncEnv (β : Type) where
  parseBlock : Str → Option β
  /-- what `ParseFromString` leaves behind when it fails -/
  unparsed : Str → β
  serializeAsString : β → Str
  /-- the blocks of a `FastSyncGetBlockAck` -/
  parseFastSyncAck : Str → Option (List FastSyncBlock)
  /-- the blocks of a `SyncGetBlockAck` -/
  parseSyncAck : Str → Option (List Str)
  /-- the height and the blocks of a `SyncFromZeroGetBlockAck` -/
  parseFromZeroAck : Str → Option (ℕ × List Str)
  getsha256hash : Str → Str
  /-- `std::sort` by height -/
  sortByHeight : List FastSyncBlock → List FastSyncBlock
  sortByHeight_perm : ∀ blocks, (sortByHeight blocks).Perm blocks

namespace SyncEnv
variable {β : Type} [BlockMessage β] (env : SyncEnv β)

/-- The block names the hash of what it contains. -/
def SelfCertified (block : β) : Prop :=
  (toCBlock block).hash = env.getsha256hash (env.serializeAsString (hashBlock block))

instance (block : β) : Decidable (env.SelfCertified block) := inferInstanceAs (Decidable (_ = _))

/-! ### Fast and new synchronisation -/

/-- The loop of `_GetFastSyncBlockData` over the answer. -/
def fastSyncBlocks (ack : List FastSyncBlock) : List β :=
  (((env.sortByHeight ack).flatMap FastSyncBlock.blocks).filterMap env.parseBlock).filter
    fun block => env.SelfCertified block

/-- `_GetFastSyncBlockData` from the end of its wait on: what it hands to `AddFastSyncBlock`, if
    anything. `top` is what `GetBlockTop` gives. -/
def getFastSyncBlockData (waited : Bool) (retDatas : List Str) (top : Option ℕ) : Option (PeerBlockData β) :=
  if ¬ waited then none
  else match retDatas with
    | [] => none
    | retData :: _ =>
      match env.parseFastSyncAck retData, top with
      | some ack, some _ => some (collectBlocks (env.fastSyncBlocks ack))
      | _, _ => none

/-- The loops of `_GetSyncBlockData` over the answers. -/
def syncBlocks (reqHashes : List Str) (retDatas : List Str) : List β :=
  ((retDatas.filterMap env.parseSyncAck).flatten.filterMap env.parseBlock).filter
    fun block => (toCBlock block).hash ∈ reqHashes ∧ env.SelfCertified block

/-- `_GetSyncBlockData` from the end of its wait on: what it hands to `AddSyncBlock`, if anything. -/
def getSyncBlockData (reqHashes : List Str) (waited : Bool) (retDatas : List Str) : Option (PeerBlockData β) :=
  if ¬ waited ∧ retDatas = [] then none else some (collectBlocks (env.syncBlocks reqHashes retDatas))

/-! ### Synchronisation from zero -/

/-- The blocks of an answer, up to the first that cannot be parsed. -/
def fromZeroBlocks : List Str → List β
  | [] => []
  | raw :: rest =>
    match env.parseBlock raw with
    | none => []
    | some block => block :: fromZeroBlocks rest

/-- `sumHashCheckData`: the hashes that the blocks name, by height. -/
def sumHashCheckData (blocks : List β) : SortedMap ℕ (List Str) :=
  blocks.foldl (fun m block => m.upsert (heightKey (toCBlock block)) fun hashes =>
    hashes.getD [] ++ [(toCBlock block).hash]) .empty

/-- The height and the blocks of an answer that adds up to the sum hash of its height. -/
def checkedAnswer (sumHashes : SortedMap ℕ Str) (retData : Str) : Option (ℕ × List β) :=
  match env.parseFromZeroAck retData with
  | none => none
  | some (height, raws) =>
    let blocks := env.fromZeroBlocks raws
    if sumHashes.find height = some (sumHeightsHash env.getsha256hash (sumHashCheckData blocks)) then
      some (height, blocks)
    else none

/-- What `_GetFromZeroSyncBlockData` finds at its own node. -/
structure OwnNode where
  selfNodeHeight : ℕ
  /-- `GetBlockHashesByBlockHeight` for one height -/
  blockHashesByHeight : ℕ → Option (List Str)
  blockByHash : Str → Option Str
  /-- the nodes with a stake and enough investment -/
  qualifyingNodes : ℕ
  syncSendZeroSyncNum : ℕ

/-- A height of the answer against the own blocks: what is handed to `AddRollbackBlock`, or the code
    with which the function returns. `std::set_difference` of sorted texts is `List.diff`. -/
def checkHeight (node : OwnNode) (height : ℕ) (hashes : List Str) : Except ℤ (Option (PeerBlockData β)) :=
  if node.selfNodeHeight < height then .ok none
  else match node.blockHashesByHeight height with
    | none => .error (-5)
    | some blockHashes =>
      if sumHeightHash env.getsha256hash blockHashes = sumHeightHash env.getsha256hash hashes then .ok none
      else
        let diffHashes := (blockHashes.insertionSort (· ≤ ·)).diff hashes
        match diffHashes.mapM node.blockByHash with
        | none => .error (-6)
        | some raws =>
          if diffHashes = [] then .ok none
          else if node.syncSendZeroSyncNum < node.qualifyingNodes then .error (-7)
          else .ok (some (collectBlocks (raws.map fun raw => (env.parseBlock raw).getD (env.unparsed raw))))

/-- The loop over the heights: what is handed to `AddRollbackBlock`, in order, and the code with which
    the function returns from within. -/
def checkHeights (node : OwnNode) : List (ℕ × List Str) → List (PeerBlockData β) × Option ℤ
  | [] => ([], none)
  | (height, hashes) :: rest =>
    match env.checkHeight node height hashes with
    | .error ret => ([], some ret)
    | .ok rollback => (rollback.toList ++ (checkHeights node rest).1, (checkHeights node rest).2)

/-- What the loop over the answers has done: what it has assigned in `_syncFromZeroCache`, under which
    height, and what it has handed to `AddRollbackBlock`. -/
structure FromZero (β : Type) [BlockMessage β] where
  assigned : List (ℕ × PeerBlockData β)
  rollbacks : List (PeerBlockData β)

/-- The loop over the answers; with the code when the function returns from within. -/
def fromZeroLoop (sumHashes : SortedMap ℕ Str) (node : OwnNode) (done : FromZero β) :
    List Str → FromZero β × Option ℤ
  | [] => (done, none)
  | retData :: rest =>
    match env.checkedAnswer sumHashes retData with
    | none => fromZeroLoop sumHashes node done rest
    | some (height, blocks) =>
      let (rollbacks, ret) := env.checkHeights node (sumHashCheckData blocks).entries
      match ret with
      | some ret => (⟨done.assigned, done.rollbacks ++ rollbacks⟩, some ret)
      | none => fromZeroLoop sumHashes node
        ⟨done.assigned ++ [(height, collectBlocks blocks)], done.rollbacks ++ rollbacks⟩ rest

/-- `_GetFromZeroSyncBlockData` from the end of its wait on. -/
def getFromZeroSyncBlockData (sumHashes : SortedMap ℕ Str) (node : OwnNode) (retDatas : List Str) :
    FromZero β × Option ℤ :=
  env.fromZeroLoop sumHashes node ⟨[], []⟩ retDatas

/-! ### Which blocks are certain -/

/-- All blocks of the map name the hash of what they contain. -/
def Certified (data : PeerBlockData β) : Prop := ∀ block ∈ data.elems, env.SelfCertified block

end SyncEnv

section Collected
variable {β : Type} [BlockMessage β]

theorem peerBlock_equiv_iff {a b : β} : StdSet.Equiv PeerBlockCompare a b ↔
    (toCBlock a).height = (toCBlock b).height ∧ (toCBlock a).time = (toCBlock b).time :=
  equiv_compare_iff (a := toCBlock a) (b := toCBlock b)

/-- A block is collected when no block of its height and time came before it. -/
theorem mem_collectBlocks {blocks : List β} {block : β} :
    block ∈ (collectBlocks blocks).elems ↔ IsFirst PeerBlockCompare blocks block := by
  refine (mem_collectByKey (fun x h => ?_) (fun x y h => ?_) (fun x y z hxy hyz => ?_) blocks).1 block
  · have hirr := (peerBlock_equiv_iff (a := x) (b := x)).mpr ⟨rfl, rfl⟩
    exact hirr.1 h
  · rw [heightKey, heightKey, (peerBlock_equiv_iff.mp h).1]
  · rw [peerBlock_equiv_iff] at hxy hyz ⊢
    exact ⟨hxy.1.trans hyz.1, hxy.2.trans hyz.2⟩

end Collected

namespace SyncEnv
variable {β : Type} [BlockMessage β] {env : SyncEnv β}

theorem certified_collectBlocks {blocks : List β} :
    env.Certified (collectBlocks blocks) ↔
      ∀ block, IsFirst PeerBlockCompare blocks block → env.SelfCertified block := by
  simp only [Certified, mem_collectBlocks]

/-- What passed a test before it was collected passes it afterwards. -/
theorem certified_of_forall {blocks : List β} (h : ∀ block ∈ blocks, env.SelfCertified block) :
    env.Certified (collectBlocks blocks) := by
  refine certified_collectBlocks.mpr ?_
  rintro block ⟨before, later, rfl, -⟩
  exact h block (by simp)

theorem certified_fastSync {waited : Bool} {retDatas : List Str} {top : Option ℕ} {data : PeerBlockData β}
    (h : env.getFastSyncBlockData waited retDatas top = some data) : env.Certified data := by
  unfold getFastSyncBlockData at h
  split at h
  · cases h
  · split at h
    · cases h
    · split at h
      · cases h
        exact certified_of_forall fun block hb => by simpa using (List.mem_filter.mp hb).2
      · cases h

theorem certified_sync {reqHashes : List Str} {waited : Bool} {retDatas : List Str} {data : PeerBlockData β}
    (h : env.getSyncBlockData reqHashes waited retDatas = some data) : env.Certified data := by
  unfold getSyncBlockData at h
  split at h
  · cases h
  · cases h
    refine certified_of_forall fun block hb => ?_
    have htest := (List.mem_filter.mp hb).2
    simp only [decide_eq_true_eq] at htest
    exact htest.2

variable (env) in
/-- The function does not return from within the answer. -/
def Passes (sumHashes : SortedMap ℕ Str) (node : OwnNode) (retData : Str) : Prop :=
  ∀ answer, env.checkedAnswer sumHashes retData = some answer →
    (env.checkHeights node (sumHashCheckData answer.2).entries).2 = none

variable (env) in
/-- The answers that the function gets to, with what they add up to the sum hash of their height. -/
def Reached (sumHashes : SortedMap ℕ Str) (node : OwnNode) (retDatas : List Str) (answer : ℕ × List β) :
    Prop :=
  ∃ before retData later, retDatas = before ++ retData :: later ∧
    (∀ r ∈ before, env.Passes sumHashes node r) ∧ env.Passes sumHashes node retData ∧
    env.checkedAnswer sumHashes retData = some answer

/-- The first answer is passed by, and the rest is left. -/
theorem reached_cons {sumHashes : SortedMap ℕ Str} {node : OwnNode} {retData : Str} {rest : List Str}
    {answer : ℕ × List β} : env.Reached sumHashes node (retData :: rest) answer ↔
      env.Passes sumHashes node retData ∧ (env.checkedAnswer sumHashes retData = some answer ∨
        env.Reached sumHashes node rest answer) := by
  constructor
  · rintro ⟨before, r, later, h, hbefore, hr, hanswer⟩
    cases before with
    | nil =>
      obtain ⟨rfl, rfl⟩ := List.cons.inj h
      exact ⟨hr, .inl hanswer⟩
    | cons first before =>
      obtain ⟨rfl, rfl⟩ := List.cons.inj h
      refine ⟨hbefore _ List.mem_cons_self, .inr ⟨before, r, later, rfl, ?_, hr, hanswer⟩⟩
      exact fun x hx => hbefore x (List.mem_cons_of_mem _ hx)
  · rintro ⟨hpass, hanswer | ⟨before, r, later, rfl, hbefore, hr, hanswer⟩⟩
    · exact ⟨[], retData, rest, rfl, nofun, hpass, hanswer⟩
    · refine ⟨retData :: before, r, later, rfl, fun x hx => ?_, hr, hanswer⟩
      rcases List.mem_cons.mp hx with rfl | hx
      · exact hpass
      · exact hbefore x hx

/-- The loop assigns the blocks of the answers it gets to. -/
theorem mem_fromZeroLoop {sumHashes : SortedMap ℕ Str} {node : OwnNode} {height : ℕ} {data : PeerBlockData β} :
    ∀ {retDatas : List Str} {done : FromZero β},
    (height, data) ∈ (env.fromZeroLoop sumHashes node done retDatas).1.assigned ↔
      (height, data) ∈ done.assigned ∨
        ∃ blocks, env.Reached sumHashes node retDatas (height, blocks) ∧ data = collectBlocks blocks
  | [], done => by
    simp [fromZeroLoop, Reached]
  | retData :: rest, done => by
    simp only [reached_cons]
    rw [fromZeroLoop]
    rcases hanswer : env.checkedAnswer sumHashes retData with _ | ⟨height', blocks'⟩
    · have hpass : env.Passes sumHashes node retData := fun answer h => by cases hanswer.symm.trans h
      simp only [mem_fromZeroLoop, hpass, true_and, reduceCtorEq, false_or]
    · dsimp only
      rcases hret : (env.checkHeights node (sumHashCheckData blocks').entries).2 with _ | ret
      · have hpass : env.Passes sumHashes node retData := by
          intro answer h
          cases hanswer.symm.trans h
          exact hret
        simp only [mem_fromZeroLoop, List.mem_append, List.mem_singleton, Prod.mk.injEq, hpass, true_and,
          Option.some.injEq, or_assoc]
        refine or_congr_right ?_
        constructor
        · rintro (⟨rfl, rfl⟩ | ⟨blocks, hreached, rfl⟩)
          · exact ⟨blocks', .inl ⟨rfl, rfl⟩, rfl⟩
          · exact ⟨blocks, .inr hreached, rfl⟩
        · rintro ⟨blocks, ⟨rfl, rfl⟩ | hreached, rfl⟩
          · exact .inl ⟨rfl, rfl⟩
          · exact .inr ⟨blocks, hreached, rfl⟩
      · -- the function returns here, so nothing more is assigned
        have hpass : ¬ env.Passes sumHashes node retData := fun h => by
          cases hret.symm.trans (h _ hanswer)
        simp only [hpass, false_and, exists_false, or_false]

/-- What is assigned are the blocks of the answers that the function gets to. -/
theorem mem_assigned {sumHashes : SortedMap ℕ Str} {node : OwnNode} {retDatas : List Str} {height : ℕ}
    {data : PeerBlockData β} : (height, data) ∈ (env.getFromZeroSyncBlockData sumHashes node retDatas).1.assigned ↔
      ∃ blocks, env.Reached sumHashes node retDatas (height, blocks) ∧ data = collectBlocks blocks := by
  rw [getFromZeroSyncBlockData, mem_fromZeroLoop]
  simp

/-! ### Exchanged blocks -/

/-- What an answer adds up to is told from the heights and the hashes that its blocks name. -/
theorem sumHashCheckData_cons {block block' : β} (hheight : (toCBlock block').height = (toCBlock block).height)
    (hhash : (toCBlock block').hash = (toCBlock block).hash) (blocks : List β) :
    sumHashCheckData (block' :: blocks) = sumHashCheckData (block :: blocks) := by
  rw [sumHashCheckData, List.foldl_cons, heightKey, hheight, hhash, sumHashCheckData, List.foldl_cons, heightKey]

variable (env) in
/-- There are blocks, parsed from an answer, whose hash fields add up to the sum hash agreed upon for the
    height of the answer, and what the node itself knows of their heights does not make it return. -/
def Attainable (sumHashes : SortedMap ℕ Str) (node : OwnNode) : Prop :=
  ∃ retData height raws, env.parseFromZeroAck retData = some (height, raws) ∧ env.fromZeroBlocks raws ≠ [] ∧
    sumHashes.find height = some (sumHeightsHash env.getsha256hash (sumHashCheckData (env.fromZeroBlocks raws))) ∧
    (env.checkHeights node (sumHashCheckData (env.fromZeroBlocks raws)).entries).2 = none

/-- Such an answer gets its blocks placed. -/
theorem reached_of_attained {sumHashes : SortedMap ℕ Str} {node : OwnNode} {retData : Str} {height : ℕ}
    {raws : List Str} (hparse : env.parseFromZeroAck retData = some (height, raws))
    (hsum : sumHashes.find height =
      some (sumHeightsHash env.getsha256hash (sumHashCheckData (env.fromZeroBlocks raws))))
    (hnode : (env.checkHeights node (sumHashCheckData (env.fromZeroBlocks raws)).entries).2 = none) :
    env.Reached sumHashes node [retData] (height, env.fromZeroBlocks raws) := by
  have hanswer : env.checkedAnswer sumHashes retData = some (height, env.fromZeroBlocks raws) := by
    rw [checkedAnswer, hparse]
    exact if_pos hsum
  refine reached_cons.mpr ⟨fun answer h => ?_, .inl hanswer⟩
  cases hanswer.symm.trans h
  exact hnode

/-- An answer that is reached has attained its sum hash. -/
theorem attainable_of_reached {sumHashes : SortedMap ℕ Str} {node : OwnNode} {retDatas : List Str}
    {answer : ℕ × List β} (h : env.Reached sumHashes node retDatas answer) (hne : answer.2 ≠ []) :
    env.Attainable sumHashes node := by
  obtain ⟨before, retData, later, -, -, hpass, hanswer⟩ := h
  have hnode := hpass answer hanswer
  unfold checkedAnswer at hanswer
  split at hanswer
  · cases hanswer
  · next height raws hparse =>
    dsimp only at hanswer
    split at hanswer
    · next hsum =>
      cases hanswer
      exact ⟨retData, height, raws, hparse, hne, hsum, hnode⟩
    · cases hanswer

/-- The first of the blocks is kept. -/
theorem certified_first {block : β} {blocks : List β} (h : env.Certified (collectBlocks (block :: blocks))) :
    env.SelfCertified block :=
  certified_collectBlocks.mp h block ⟨[], blocks, rfl, nofun⟩

/-- What the three functions place is certain, whatever the answers are, exactly when from zero no block
    can be placed: a block in an answer can be exchanged for one with other contents that names the same
    hash, and then the function does not notice. -/
theorem placed_certified_iff (env : SyncEnv β) (top : Option ℕ) (sumHashes : SortedMap ℕ Str) (node : OwnNode)
    (hexchange : ∀ retData height raw raws raw', env.parseFromZeroAck retData = some (height, raw :: raws) →
      (env.parseBlock raw').isSome → ∃ retData', env.parseFromZeroAck retData' = some (height, raw' :: raws))
    (hcontents : ∀ raw block, env.parseBlock raw = some block → ∃ raw' block', env.parseBlock raw' = some block' ∧
      (toCBlock block').hash = (toCBlock block).hash ∧ (toCBlock block').height = (toCBlock block).height ∧
      env.getsha256hash (env.serializeAsString (hashBlock block'))
        ≠ env.getsha256hash (env.serializeAsString (hashBlock block))) :
    (∀ waited waited' fastAnswers reqHashes newAnswers fromZeroAnswers,
      (∀ data ∈ env.getFastSyncBlockData waited fastAnswers top, env.Certified data) ∧
      (∀ data ∈ env.getSyncBlockData reqHashes waited' newAnswers, env.Certified data) ∧
      ∀ entry ∈ (env.getFromZeroSyncBlockData sumHashes node fromZeroAnswers).1.assigned,
        env.Certified entry.2) ↔ ¬ env.Attainable sumHashes node := by
  constructor
  · rintro hall ⟨retData, height, raws, hparse, hne, hsum, hnode⟩
    have hplaced {retData : Str} {raws : List Str} {block : β} {blocks : List β}
        (hparse : env.parseFromZeroAck retData = some (height, raws))
        (hblocks : env.fromZeroBlocks raws = block :: blocks)
        (hsum : sumHashes.find height =
          some (sumHeightsHash env.getsha256hash (sumHashCheckData (block :: blocks))))
        (hnode : (env.checkHeights node (sumHashCheckData (block :: blocks)).entries).2 = none) :
        env.SelfCertified block := by
      rw [← hblocks] at hsum hnode
      have hreached := reached_of_attained hparse hsum hnode
      have hcertified := (hall true true [] [] [] [retData]).2.2 _ (mem_assigned.mpr ⟨_, hreached, rfl⟩)
      rw [hblocks] at hcertified
      exact certified_first hcertified
    cases raws with
    | nil => exact hne rfl
    | cons raw raws =>
      rcases hraw : env.parseBlock raw with _ | block
      · rw [fromZeroBlocks, hraw] at hne
        exact hne rfl
      -- the block, and another one that names the same hash
      obtain ⟨raw', block', hraw', hhash, hheight, hother⟩ := hcontents raw block hraw
      obtain ⟨retData', hparse'⟩ := hexchange retData height raw raws raw' hparse (by rw [hraw']; rfl)
      have hblocks : env.fromZeroBlocks (raw :: raws) = block :: env.fromZeroBlocks raws := by
        rw [fromZeroBlocks, hraw]
      have hblocks' : env.fromZeroBlocks (raw' :: raws) = block' :: env.fromZeroBlocks raws := by
        rw [fromZeroBlocks, hraw']
      rw [hblocks] at hsum hnode
      have hcertified := hplaced hparse hblocks hsum hnode
      rw [← sumHashCheckData_cons hheight hhash] at hsum hnode
      have hcertified' := hplaced hparse' hblocks' hsum hnode
      exact hother (hcertified'.symm.trans (hhash.trans hcertified))
  · intro hnone waited waited' fastAnswers reqHashes newAnswers fromZeroAnswers
    refine ⟨fun data hd => certified_fastSync hd, fun data hd => certified_sync hd, ?_⟩
    rintro ⟨height, data⟩ hentry
    obtain ⟨blocks, hreached, rfl⟩ := mem_assigned.mp hentry
    have hnil : blocks = [] := not_not.mp fun hne => hnone (attainable_of_reached hreached hne)
    subst hnil
    exact @certified_of_forall _ _ _ [] nofun

end SyncEnv

/-! A block of height 5 that names a hash it does not have, sent by itself for the sum hash at height
    100. -/

/-- A block with these fields, apart from which it is empty. -/
structure BareBlock where
  hash : Str
  height : Int64
  data : Str
  deriving DecidableEq

instance : BlockMessage BareBlock where
  toCBlock block := ⟨0, block.hash, [], block.height, [], block.data⟩
  hashBlock block := { block with hash := [] }

/-- The hash the block names. -/
def forgedHash : Str := List.replicate 64 97

/-- The block. -/
def forgedBlock : BareBlock := ⟨forgedHash, 5, []⟩

/-- The block as it is sent. -/
def forgedRaw : Str := [0x1a, 0x40] ++ forgedHash ++ [0x28, 0x05]

/-- The same block with a letter for its data. -/
def otherRaw : Str := forgedRaw ++ [0x42, 0x01, 0x61]

/-- The answers they come in. -/
def forgedAnswer : Str := [0x18, 0x64, 0x22, 0x44] ++ forgedRaw
def otherAnswer : Str := [0x18, 0x64, 0x22, 0x47] ++ otherRaw

/-- `Getsha256hash` of what the blocks contain, of what is left of the hash they name, and of what is left
    of the hash of that. -/
def forgedSha (text : Str) : Str :=
  if text = [0x28, 0x05] then str "c0af5795e18dd44f657a1dd938804ca413cb6e4d969114701a272bd45510e870"
  else if text = [0x28, 0x05, 0x42, 0x01, 0x61] then
    str "464b507df7424533b3b7dde56ccf8e38d4a9915d57fc1b32ea4ee468a5fee95a"
  else if text = forgedHash.dropLast then str "7d3e74a05d7db15bce4ad9ec0658ea98e3f06eeecf16b4c6fff2da457ddc2f34"
  else str "c1061458046e56fa85739ed2abd0001f260d1d9a8d0018b3d91f0d1c01335bb3"

/-- The messages above, and no others. -/
def forgedEnv : SyncEnv BareBlock where
  parseBlock raw := if raw = forgedRaw then some forgedBlock
    else if raw = otherRaw then some { forgedBlock with data := [0x61] } else none
  unparsed _ := ⟨[], 0, []⟩
  serializeAsString block :=
    (if block.hash = [] then [] else [0x1a, 0x40] ++ block.hash) ++ [0x28, 0x05] ++
      if block.data = [] then [] else [0x42, 0x01] ++ block.data
  parseFastSyncAck _ := none
  parseSyncAck _ := none
  parseFromZeroAck raw := if raw = forgedAnswer then some (100, [forgedRaw])
    else if raw = otherAnswer then some (100, [otherRaw]) else none
  getsha256hash := forgedSha
  sortByHeight blocks := blocks
  sortByHeight_perm blocks := .refl blocks

/-- The sum hash agreed upon for height 100. -/
def forgedSumHashes : SortedMap ℕ Str :=
  ⟨[(100, forgedSha (forgedSha forgedHash.dropLast).dropLast)], List.pairwise_singleton _ _⟩

/-- A node that has no block of that height yet. -/
def forgedNode : SyncEnv.OwnNode := ⟨0, fun _ => none, fun _ => none, 0, 0⟩

/-- The block is put into `_syncFromZeroCache`. -/
theorem fromZero_places_forged_block :
    ¬ ∀ entry ∈ (forgedEnv.getFromZeroSyncBlockData forgedSumHashes forgedNode [forgedAnswer]).1.assigned,
      forgedEnv.Certified entry.2 := by
  have hassigned : (forgedEnv.getFromZeroSyncBlockData forgedSumHashes forgedNode
      [forgedAnswer]).1.assigned.map (fun entry => entry.2.elems) = [[forgedBlock]] := by decide
  intro h
  have hmem : [forgedBlock] ∈ (forgedEnv.getFromZeroSyncBlockData forgedSumHashes forgedNode
      [forgedAnswer]).1.assigned.map fun entry => entry.2.elems := by
    rw [hassigned]
    exact List.mem_singleton.mpr rfl
  obtain ⟨entry, hentry, helems⟩ := List.mem_map.mp hmem
  have hcertified : forgedEnv.SelfCertified forgedBlock := h entry hentry forgedBlock (by
    rw [helems]
    exact List.mem_singleton.mpr rfl)
  exact absurd hcertified (by decide)

theorem placed_certified_iff_forged :
    (∀ waited waited' fastAnswers reqHashes newAnswers fromZeroAnswers,
      (∀ data ∈ forgedEnv.getFastSyncBlockData waited fastAnswers (some 0), forgedEnv.Certified data) ∧
      (∀ data ∈ forgedEnv.getSyncBlockData reqHashes waited' newAnswers, forgedEnv.Certified data) ∧
      ∀ entry ∈ (forgedEnv.getFromZeroSyncBlockData forgedSumHashes forgedNode fromZeroAnswers).1.assigned,
        forgedEnv.Certified entry.2) ↔ ¬ forgedEnv.Attainable forgedSumHashes forgedNode := by
  refine SyncEnv.placed_certified_iff forgedEnv (some 0) forgedSumHashes forgedNode ?_ ?_
  · intro retData height raw raws raw' hparse hraw'
    have hnil : height = 100 ∧ raws = [] := by
      simp only [forgedEnv] at hparse
      split_ifs at hparse <;> cases hparse <;> exact ⟨rfl, rfl⟩
    obtain ⟨rfl, rfl⟩ := hnil
    simp only [forgedEnv] at hraw'
    split_ifs at hraw' with h h'
    · subst h
      exact ⟨forgedAnswer, by decide⟩
    · subst h'
      exact ⟨otherAnswer, by decide⟩
    · cases hraw'
  · intro raw block hraw
    simp only [forgedEnv] at hraw
    split_ifs at hraw with h h'
    · cases hraw
      exact ⟨otherRaw, { forgedBlock with data := [0x61] }, by decide, rfl, rfl, by decide⟩
    · cases hraw
      exact ⟨forgedRaw, forgedBlock, by decide, rfl, rfl, by decide⟩

end Tfs.Ca
