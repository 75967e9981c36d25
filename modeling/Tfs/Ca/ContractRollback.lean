import Tfs.Ca.HelperProcess

/-! Which blocks fall with a contract (`BlockHelper::RollbackContractBlock`).

    The blocks to roll back name contracts; one pass over the database adds the later blocks of these
    contracts, and no contract that only an added block names is looked for. A block that is to be added
    gets into the set of its height unless another one has its time. -/

namespace Tfs.Ca

variable {info : ContractInfo} {p : ProcessMeets} {m extended : SyncBlockData}

/-- The blocks of the database from the lowest height to roll back up to the top. -/
def ProcessMeets.storedBlocks (p : ProcessMeets) (rollbackBlocks : SyncBlockData) : List CBlock :=
  match p.rollbackTop with
  | none => []
  | some selfNodeHeight =>
    ((p.blockHashes ((rollbackBlocks.entries.head?.map Prod.fst).getD 0) selfNodeHeight).getD []).filterMap
      p.blockByHash

/-- Every block of the database that shares a contract with a block to roll back is to be rolled back
    too. -/
def ContractInfo.Closed (info : ContractInfo) (stored : List CBlock) (rollbackBlocks : SyncBlockData) : Prop :=
  ∀ block ∈ stored, ∀ addr ∈ info.contractAddrs [block],
    addr ∈ info.contractAddrs rollbackBlocks.blocks → block ∈ rollbackBlocks.blocks

instance (info : ContractInfo) (stored : List CBlock) (m : SyncBlockData) : Decidable (info.Closed stored m) :=
  inferInstanceAs (Decidable (∀ _ ∈ _, ∀ _ ∈ _, _))

/-- A block touches a scheduled one: it is not scheduled itself and shares a contract with one that
    is. -/
def ContractInfo.Touches (info : ContractInfo) (scheduled : SyncBlockData) (block : CBlock) : Prop :=
  block.hash ∉ scheduled.blocks.map CBlock.hash ∧
    ∃ addr ∈ info.contractAddrs [block], addr ∈ info.contractAddrs scheduled.blocks

instance (info : ContractInfo) (m : SyncBlockData) (block : CBlock) : Decidable (info.Touches m block) :=
  inferInstanceAs (Decidable (_ ∧ _))

/-- The contracts are reached in one step: a block that shares one with a block that is scheduled or
    touches a scheduled one is such a block itself. -/
def ContractInfo.OneStep (info : ContractInfo) (stored : List CBlock) (scheduled : SyncBlockData) : Prop :=
  ∀ block ∈ stored, ∀ addr ∈ info.contractAddrs [block],
    (addr ∈ info.contractAddrs scheduled.blocks ∨
      ∃ other ∈ stored, info.Touches scheduled other ∧ addr ∈ info.contractAddrs [other]) →
    block ∈ scheduled.blocks ∨ info.Touches scheduled block

instance (info : ContractInfo) (stored : List CBlock) (m : SyncBlockData) : Decidable (info.OneStep stored m) :=
  inferInstanceAs (Decidable (∀ _ ∈ _, ∀ _ ∈ _, _))

/-- No other block of its height has the time of a block that touches a scheduled one, neither among the
    scheduled blocks nor among those that touch one. -/
def ContractInfo.Separated (info : ContractInfo) (stored : List CBlock) (scheduled : SyncBlockData) : Prop :=
  ∀ block ∈ stored, info.Touches scheduled block →
    ∀ other ∈ ((scheduled.find (heightKey block)).getD .empty).elems ++ stored.filter (info.Touches scheduled ·),
      block.height = other.height → block.time = other.time → block = other

instance (info : ContractInfo) (stored : List CBlock) (m : SyncBlockData) :
    Decidable (info.Separated stored m) :=
  inferInstanceAs (Decidable (∀ _ ∈ _, _ → ∀ _ ∈ _, _))

theorem ContractInfo.mem_contractAddrs {blocks : List CBlock} {addr : Str} :
    addr ∈ info.contractAddrs blocks ↔ ∃ block ∈ blocks, info.isContractBlock block = true ∧
      addr ≠ [] ∧ ∃ tx ∈ block.txs, info.getContractAddr tx = addr := by
  simp only [contractAddrs, List.mem_filter, List.mem_map, List.mem_flatMap, decide_eq_true_eq]
  constructor
  · rintro ⟨⟨tx, ⟨block, ⟨hb, hc⟩, htx⟩, rfl⟩, hne⟩
    exact ⟨block, hb, hc, hne, tx, htx, rfl⟩
  · rintro ⟨block, hb, hc, hne, tx, htx, rfl⟩
    exact ⟨⟨tx, ⟨block, ⟨hb, hc⟩, htx⟩, rfl⟩, hne⟩

theorem ContractInfo.mem_contractAddrs_iff {blocks : List CBlock} {addr : Str} :
    addr ∈ info.contractAddrs blocks ↔ ∃ block ∈ blocks, addr ∈ info.contractAddrs [block] := by
  simp only [mem_contractAddrs, List.mem_singleton, exists_eq_left]

/-! ### What the pass adds -/

/-- A block of the database as often as the pass inserts it. -/
def ContractInfo.insertions (info : ContractInfo) (hashes addrs : List Str) (block : CBlock) : List CBlock :=
  if block.hash ∈ hashes then []
  else if info.isContractBlock block then
    (block.txs.filter fun tx => info.getContractAddr tx ≠ [] ∧ info.getContractAddr tx ∈ addrs).map
      fun _ => block
  else []

theorem ContractInfo.addContractBlock_eq (hashes addrs : List Str) (m : SyncBlockData) (block : CBlock) :
    info.addContractBlock hashes addrs m block =
      (info.insertions hashes addrs block).foldl addBlockToMap m := by
  rw [addContractBlock, insertions]
  split_ifs
  · rfl
  · generalize block.txs = txs
    induction txs generalizing m with
    | nil => rfl
    | cons tx txs ih =>
      rw [List.foldl_cons, ih, List.filter_cons]
      split_ifs <;> simp_all
  · rfl

theorem ContractInfo.mem_insertions {hashes addrs : List Str} {block inserted : CBlock} :
    inserted ∈ info.insertions hashes addrs block ↔ inserted = block ∧ block.hash ∉ hashes ∧
      ∃ addr ∈ info.contractAddrs [block], addr ∈ addrs := by
  rw [insertions]
  split_ifs with hhash hcontract
  · simp [hhash]
  · simp only [List.mem_map, List.mem_filter, decide_eq_true_eq, mem_contractAddrs, List.mem_singleton,
      exists_eq_left, hcontract, true_and]
    constructor
    · rintro ⟨tx, ⟨htx, hne, haddr⟩, rfl⟩
      exact ⟨rfl, hhash, _, ⟨hne, tx, htx, rfl⟩, haddr⟩
    · rintro ⟨rfl, -, _, ⟨hne, tx, htx, rfl⟩, haddr⟩
      exact ⟨tx, ⟨htx, hne, haddr⟩, rfl⟩
  · simp [mem_contractAddrs, hcontract]

/-- The pass, block by block. -/
theorem ContractInfo.foldlM_addContractBlock {hashes addrs : List Str} : ∀ {blockHashes : List Str}
    {m : SyncBlockData}, blockHashes.foldlM (fun m blockHash => match p.blockByHash blockHash with
        | none => Except.error (-3 : ℤ)
        | some block => .ok (info.addContractBlock hashes addrs m block)) m = .ok extended →
      extended = ((blockHashes.filterMap p.blockByHash).flatMap
        (info.insertions hashes addrs)).foldl addBlockToMap m
  | [], _, h => by
    cases h
    rfl
  | blockHash :: blockHashes, m, h => by
    rw [List.foldlM_cons] at h
    cases hget : p.blockByHash blockHash with
    | none =>
      simp only [hget] at h
      cases h
    | some block =>
      simp only [hget] at h
      rw [List.filterMap_cons_some hget, List.flatMap_cons, List.foldl_append, ← addContractBlock_eq]
      exact foldlM_addContractBlock h

/-- What `RollbackContractBlock` leaves when it returns 0. -/
theorem ContractInfo.rollbackContractBlock_eq (h : info.rollbackContractBlock p m = .ok extended) :
    extended = ((p.storedBlocks m).flatMap (info.insertions (m.blocks.map CBlock.hash)
      (info.contractAddrs m.blocks))).foldl addBlockToMap m := by
  unfold rollbackContractBlock at h
  unfold ProcessMeets.storedBlocks
  cases htop : p.rollbackTop with
  | none =>
    simp only [htop] at h
    cases h
  | some selfNodeHeight =>
    simp only [htop] at h ⊢
    cases hhashes : p.blockHashes ((m.entries.head?.map Prod.fst).getD 0) selfNodeHeight with
    | none =>
      simp only [hhashes] at h
      cases h
    | some blockHashes =>
      simp only [hhashes] at h
      exact foldlM_addContractBlock h

theorem ContractInfo.mem_touches {stored : List CBlock} {block : CBlock} :
    block ∈ stored.flatMap (info.insertions (m.blocks.map CBlock.hash) (info.contractAddrs m.blocks)) ↔
      block ∈ stored ∧ info.Touches m block := by
  simp only [List.mem_flatMap, mem_insertions]
  constructor
  · rintro ⟨_, hb, rfl, htouches⟩
    exact ⟨hb, htouches⟩
  · rintro ⟨hb, htouches⟩
    exact ⟨block, hb, rfl, htouches⟩

/-- All new blocks get into a map exactly when each of them differs in height or time from every other
    one and from what its height held before. -/
theorem foldl_addBlockToMap_complete {blocks : List CBlock} {m : SyncBlockData}
    (hnew : ∀ block ∈ blocks, block ∉ m.blocks) :
    (∀ block ∈ blocks, block ∈ (blocks.foldl addBlockToMap m).blocks) ↔
      ∀ block ∈ blocks, ∀ other, other ∈ (m.find (heightKey block)).getD .empty ∨ other ∈ blocks →
        block.height = other.height → block.time = other.time → block = other := by
  -- a new block can only get in at its own height
  have hat : ∀ block ∈ blocks, (block ∈ (blocks.foldl addBlockToMap m).blocks ↔
      block ∈ ((m.find (heightKey block)).getD .empty).insertAll
        (blocks.filter fun b => heightKey b = heightKey block)) := by
    intro block hb
    rw [mem_blocks]
    simp only [foldl_addBlockToMap]
    refine ⟨fun ⟨k, hk⟩ => ?_, fun hk => ⟨_, hk⟩⟩
    rcases StdSet.mem_of_mem_insertAll hk with hold | hin
    · exact absurd (mem_blocks.mpr ⟨k, hold⟩) (hnew block hb)
    · obtain rfl : heightKey block = k := by simpa using (List.mem_filter.mp hin).2
      exact hk
  constructor
  · intro hall block hb other hother hheight htime
    have hin : ∀ x ∈ blocks.filter fun b => heightKey b = heightKey block,
        x ∈ ((m.find (heightKey block)).getD .empty).insertAll
          (blocks.filter fun b => heightKey b = heightKey block) := by
      intro x hx
      obtain ⟨hx, hkey⟩ := List.mem_filter.mp hx
      have hxin := (hat x hx).mp (hall x hx)
      rwa [show heightKey x = heightKey block by simpa using hkey] at hxin
    have hkey : heightKey other = heightKey block := by rw [heightKey, heightKey, hheight]
    exact StdSet.insertAll_complete.mp hin block (List.mem_filter.mpr ⟨hb, by simp⟩) other
      (hother.imp id fun hin => List.mem_filter.mpr ⟨hin, by simpa using hkey⟩)
      (equiv_compare_iff.mpr ⟨hheight, htime⟩)
  · intro hsep block hb
    have hin : ∀ x ∈ blocks.filter fun b => heightKey b = heightKey block,
        x ∈ ((m.find (heightKey block)).getD .empty).insertAll
          (blocks.filter fun b => heightKey b = heightKey block) := by
      refine StdSet.insertAll_complete.mpr fun x hx other hother heq => ?_
      obtain ⟨hx, hkey⟩ := List.mem_filter.mp hx
      obtain ⟨hheight, htime⟩ := equiv_compare_iff.mp heq
      have hkey : heightKey x = heightKey block := by simpa using hkey
      rw [← hkey] at hother
      exact hsep x hx other (hother.imp id fun hin => (List.mem_filter.mp hin).1) hheight htime
    exact (hat block hb).mpr (hin block (List.mem_filter.mpr ⟨hb, by simp⟩))

/-- Nothing else gets in. -/
theorem mem_of_mem_foldl_addBlockToMap {blocks : List CBlock} {m : SyncBlockData} {block : CBlock}
    (hb : block ∈ (blocks.foldl addBlockToMap m).blocks) : block ∈ m.blocks ∨ block ∈ blocks := by
  obtain ⟨k, hk⟩ := mem_blocks.mp hb
  rw [foldl_addBlockToMap] at hk
  exact (StdSet.mem_of_mem_insertAll hk).imp (fun hold => mem_blocks.mpr ⟨k, hold⟩)
    fun hin => (List.mem_filter.mp hin).1

/-! ### When the result is closed -/

/-- Every block that touches a scheduled one is added exactly when they are separated. -/
theorem ContractInfo.touches_added_iff (h : info.rollbackContractBlock p m = .ok extended) :
    (∀ block ∈ p.storedBlocks m, info.Touches m block → block ∈ extended.blocks) ↔
      info.Separated (p.storedBlocks m) m := by
  have hnew : ∀ block ∈ (p.storedBlocks m).flatMap (info.insertions (m.blocks.map CBlock.hash)
      (info.contractAddrs m.blocks)), block ∉ m.blocks := by
    intro block hb hin
    exact (mem_touches.mp hb).2.1 (List.mem_map_of_mem hin)
  have hcomplete := foldl_addBlockToMap_complete hnew
  rw [← rollbackContractBlock_eq h] at hcomplete
  simp only [mem_touches, and_imp] at hcomplete
  rw [hcomplete]
  simp only [Separated, List.mem_append, List.mem_filter, decide_eq_true_eq, StdSet.mem_def]

/-- A block to roll back at the end was scheduled or touches a scheduled one. -/
theorem ContractInfo.mem_extended (h : info.rollbackContractBlock p m = .ok extended) {block : CBlock}
    (hb : block ∈ extended.blocks) : block ∈ m.blocks ∨ block ∈ p.storedBlocks m ∧ info.Touches m block := by
  rw [rollbackContractBlock_eq h] at hb
  exact (mem_of_mem_foldl_addBlockToMap hb).imp id mem_touches.mp

/-- When `RollbackContractBlock` returns 0, the blocks to roll back are closed under sharing a contract
    exactly when the contracts are reached in one step and the blocks to add are separated. -/
theorem contract_rollback_closed_iff (info : ContractInfo) (p : ProcessMeets) (m extended : SyncBlockData)
    (h : info.rollbackContractBlock p m = .ok extended) :
    info.Closed (p.storedBlocks m) extended ↔
      info.OneStep (p.storedBlocks m) m ∧ info.Separated (p.storedBlocks m) m := by
  have hkeeps {block : CBlock} (hb : block ∈ m.blocks) : block ∈ extended.blocks :=
    info.mem_rollbackContractBlock_of_mem h hb
  have hscheduled {addr : Str} (haddr : addr ∈ info.contractAddrs m.blocks) :
      addr ∈ info.contractAddrs extended.blocks := by
    obtain ⟨block, hb, haddr⟩ := ContractInfo.mem_contractAddrs_iff.mp haddr
    exact ContractInfo.mem_contractAddrs_iff.mpr ⟨block, hkeeps hb, haddr⟩
  rw [← ContractInfo.touches_added_iff h]
  constructor
  · intro hclosed
    have hadded : ∀ block ∈ p.storedBlocks m, info.Touches m block → block ∈ extended.blocks := by
      rintro block hb ⟨-, addr, haddr, hshared⟩
      exact hclosed block hb addr haddr (hscheduled hshared)
    refine ⟨fun block hb addr haddr hshared => ?_, hadded⟩
    have hin : block ∈ extended.blocks := by
      refine hclosed block hb addr haddr ?_
      rcases hshared with hshared | ⟨other, hother, htouches, hshared⟩
      · exact hscheduled hshared
      · exact ContractInfo.mem_contractAddrs_iff.mpr ⟨other, hadded other hother htouches, hshared⟩
    exact (ContractInfo.mem_extended h hin).imp id And.right
  · rintro ⟨hone, hadded⟩ block hb addr haddr hshared
    obtain ⟨other, hother, hshared⟩ := ContractInfo.mem_contractAddrs_iff.mp hshared
    have hreached : addr ∈ info.contractAddrs m.blocks ∨
        ∃ other ∈ p.storedBlocks m, info.Touches m other ∧ addr ∈ info.contractAddrs [other] := by
      rcases ContractInfo.mem_extended h hother with hother | ⟨hother, htouches⟩
      · exact .inl (ContractInfo.mem_contractAddrs_iff.mpr ⟨other, hother, hshared⟩)
      · exact .inr ⟨other, hother, htouches, hshared⟩
    exact (hone block hb addr haddr hreached).elim hkeeps (hadded block hb)

/-- A transaction whose hash names the contract it calls, in the sample world. -/
def callOf (contract : String) : CTransaction := { CTransaction.cleared with hash := str contract }

/-- A block that calls the contracts given. -/
def callingBlock (hash : String) (height : Int64) (time : UInt64) (contracts : List String) : CBlock :=
  ⟨time, str hash, [], height, contracts.map callOf, []⟩

/-- The sample world: every block calls contracts, and the database holds the blocks given. -/
def namedContracts : ContractInfo := ⟨fun _ => true, CTransaction.hash⟩
def holding (blocks : List CBlock) : ProcessMeets :=
  { processMeets savesUnverified 0 with
    blockHashes := fun beginHeight endHeight => some ((blocks.filter fun b =>
      beginHeight ≤ heightKey b ∧ heightKey b ≤ endHeight).map CBlock.hash)
    blockByHash := fun hash => blocks.find? fun b => b.hash = hash }

/-- A block is scheduled, and a later one of the same contract is in the database. -/
theorem contract_rollback_closed_pair :
    let scheduled := callingBlock "a" 5 100 ["c"]
    let later := callingBlock "b" 6 200 ["c", "d"]
    ∃ extended, namedContracts.rollbackContractBlock (holding [scheduled, later])
        (addBlockToMap .empty scheduled) = .ok extended ∧
      extended.blocks = [scheduled, later] ∧
      namedContracts.Closed ((holding [scheduled, later]).storedBlocks (addBlockToMap .empty scheduled))
        extended := by
  intro scheduled later
  refine ⟨_, rfl, by decide, (contract_rollback_closed_iff _ _ _ _ rfl).mpr ?_⟩
  decide

/-- The scheduled block calls one contract, a later block calls it and another one, and a third block
    calls the other one only: it stays. -/
theorem contract_rollback_not_closed :
    let scheduled := callingBlock "a" 5 100 ["c"]
    let later := callingBlock "b" 6 200 ["c", "d"]
    let last := callingBlock "e" 7 300 ["d"]
    ∃ extended, namedContracts.rollbackContractBlock (holding [scheduled, later, last])
        (addBlockToMap .empty scheduled) = .ok extended ∧
      ¬ namedContracts.Closed ((holding [scheduled, later, last]).storedBlocks
        (addBlockToMap .empty scheduled)) extended :=
  ⟨_, rfl, by decide⟩

end Tfs.Ca
