import Tfs.Ca.SyncBlock
import Tfs.Lib.Runs

/-! What the block helper does with synchronised blocks and scheduled rollbacks (`BlockHelper::Process`,
    `SaveBlock`, `PreSaveProcess`, `RollbackBlocks`, `AddSyncBlock`, `AddFastSyncBlock` and
    `AddRollbackBlock` in `ca/block_helper.cpp`).

    Other threads hand blocks over, and `Process` works on all that has been handed over since it was
    called last; every one of these functions holds the lock of the helper. How the blocks are to be
    saved is kept in one variable for all of them, which each call overwrites; the blocks to roll back
    are kept in one map, which each call assigns. So a call that comes before `Process` has dealt with
    the last one can change how earlier blocks are saved, and take earlier rollbacks away. The loops of
    `Process` over the broadcast and the pending blocks, which are not handed over this way, are left
    out. -/

namespace Tfs.Ca

/-! ### Saving a block -/

/-- `global::ca::SaveType`. -/
inductive SaveType where
  | syncNormal
  | syncFromZero
  | broadcast
  | unknow
  deriving DecidableEq, Repr

/-- `global::ca::BlockObtainMean`. -/
inductive BlockObtainMean where
  | normal
  | byPreHash
  | byUtxo
  deriving DecidableEq, Repr

/-- What a call of `SaveBlock` meets. -/
structure SaveMeets where
  /-- `GetBlockTop` -/
  top : Option ℕ
  /-- the block is in the database -/
  stored : Bool
  /-- `ca_algorithm::VerifyBlock` -/
  verifyBlock : ℤ
  /-- what `PreSaveProcess` returns for a broadcast block -/
  preSaveBroadcast : ℤ
  /-- `ca_algorithm::SaveBlock` -/
  saveBlock : ℤ
  /-- `_missingPrehash` after verifying or saving -/
  missingPrehash : Bool
  /-- `_missingUtxos` is not empty after verifying or saving -/
  missingUtxos : Bool
  /-- `TransactionCommit` -/
  commit : Bool
  deriving DecidableEq, Repr

/-- A call of `SaveBlock`: its arguments, what it returns, whether `VerifyBlock` was called with
    success, and whether the block was written. -/
structure SaveCall where
  block : CBlock
  saveType : SaveType
  obtainMean : BlockObtainMean
  ret : ℤ
  verified : Bool
  written : Bool
  deriving DecidableEq

/-- `BlockHelper::PreSaveProcess`. -/
def preSaveProcess (m : SaveMeets) (saveType : SaveType) : ℤ :=
  match saveType with
  | .syncNormal =>
    if m.verifyBlock ≠ 0 then if m.missingPrehash then -1 else if m.missingUtxos then -2 else -3
    else 0
  | .broadcast => m.preSaveBroadcast
  | _ => 0

/-- `BlockHelper::SaveBlock`. -/
def saveBlock (m : SaveMeets) (block : CBlock) (saveType : SaveType) (obtainMean : BlockObtainMean) :
    SaveCall :=
  let call (ret : ℤ) (verified written : Bool) : SaveCall :=
    ⟨block, saveType, obtainMean, ret, verified, written⟩
  let verified : Bool := saveType = .syncNormal ∧ m.verifyBlock = 0
  match m.top with
  | none => call (-3) false false
  | some nodeHeight =>
    if heightKey block ≥ (nodeHeight + 2) % 2 ^ 64 then call (-4) false false
    else if m.stored then call 0 false false
    else if preSaveProcess m saveType < 0 then call (-5) verified false
    else if m.saveBlock ≠ 0 then
      call (if m.missingPrehash then -6 else if m.missingUtxos then -7 else -8) verified false
    else if ¬ m.commit then call (-9) verified false
    else call 0 verified true

/-- A call says with which block and how it was made. -/
theorem saveBlock_args (m : SaveMeets) (block : CBlock) (saveType : SaveType) (obtainMean : BlockObtainMean) :
    (saveBlock m block saveType obtainMean).block = block ∧
      (saveBlock m block saveType obtainMean).saveType = saveType := by
  unfold saveBlock
  dsimp only
  split
  · exact ⟨rfl, rfl⟩
  · split_ifs <;> exact ⟨rfl, rfl⟩

/-- A call as `SyncNormal` does not write a block that was not verified. -/
theorem saveBlock_verified {m : SaveMeets} {block : CBlock} {saveType : SaveType}
    {obtainMean : BlockObtainMean} (hwritten : (saveBlock m block saveType obtainMean).written = true)
    (htype : saveType = .syncNormal) : (saveBlock m block saveType obtainMean).verified = true := by
  subst htype
  unfold saveBlock at hwritten ⊢
  dsimp only at hwritten ⊢
  split at hwritten
  · cases hwritten
  · split_ifs at hwritten ⊢ with _ _ hpre
    by_contra hnot
    have hverify : m.verifyBlock ≠ 0 := by simpa using hnot
    refine hpre ?_
    rw [preSaveProcess, if_pos hverify]
    split_ifs <;> decide

/-! ### The state of the helper -/

/-- What other threads hand over to the helper, how it is to be saved (`g_syncType`), and the flag of
    `Process`. -/
structure HelperState extends WaitingSets where
  utxoMissingBlocks : List CBlock
  rollbackBlocks : SyncBlockData
  syncType : SaveType
  processing : Bool

/-- The helper at the start. -/
def HelperState.start : HelperState := ⟨.empty, [], .empty, .unknow, false⟩

/-- What depends on code that is not at hand (`IsContractBlock` and `GetContractAddr`). -/
structure ContractInfo where
  isContractBlock : CBlock → Bool
  getContractAddr : CTransaction → Str

/-- What a call of `Process` meets: the clock, the database, and what the calls it makes return. -/
structure ProcessMeets where
  /-- `GetBlockTop` -/
  top : Option ℕ
  /-- `GetUTCTimestamp` -/
  nowTime : UInt64
  /-- `GetBlockTop` in `RollbackContractBlock` -/
  rollbackTop : Option ℕ
  /-- `GetBlockHashesByBlockHeight` from the first to the last height given -/
  blockHashes : ℕ → ℕ → Option (List Str)
  /-- `GetBlockByBlockHash` -/
  blockByHash : Str → Option CBlock
  /-- `RollBackByHash`, by the number of the call -/
  rollBackByHash : ℕ → ℤ
  /-- `ObtainChainHeight` -/
  chainHeight : Bool
  /-- the calls of `SaveBlock` in the three loops, by the number of the call -/
  fast : ℕ → SaveMeets
  missing : ℕ → SaveMeets
  sync : ℕ → SaveMeets
  /-- `_stopBlocking`, before each call of the last loop -/
  stopBlocking : ℕ → Bool

/-! ### Rollbacks -/

/-- A block is left out as long as this holds. -/
def noTimeout (nowTime : UInt64) (block : CBlock) : Bool := nowTime ≤ 60 * 1000000 + block.time

/-- The blocks that have not timed out are taken out, with the heights that get empty by it. -/
def dropNoTimeout (nowTime : UInt64) (rollbackBlocks : SyncBlockData) : SyncBlockData :=
  rollbackBlocks.filterMap fun value =>
    let rest := value.filter fun block => ! noTimeout nowTime block
    if value.elems.any (noTimeout nowTime) ∧ rest.elems = [] then none else some rest

/-- The contracts called or deployed by the blocks. -/
def ContractInfo.contractAddrs (info : ContractInfo) (blocks : List CBlock) : List Str :=
  (((blocks.filter info.isContractBlock).flatMap CBlock.txs).map info.getContractAddr).filter (· ≠ [])

/-- What `RollbackContractBlock` does with a block of the database. -/
def ContractInfo.addContractBlock (info : ContractInfo) (hashes addrs : List Str) (rollbackBlocks : SyncBlockData)
    (block : CBlock) : SyncBlockData :=
  if block.hash ∈ hashes then rollbackBlocks
  else if info.isContractBlock block then
    block.txs.foldl (fun m tx =>
      if info.getContractAddr tx ≠ [] ∧ info.getContractAddr tx ∈ addrs then addBlockToMap m block else m)
      rollbackBlocks
  else rollbackBlocks

/-- `BlockHelper::RollbackContractBlock`: the later blocks of the same contracts are added. -/
def ContractInfo.rollbackContractBlock (info : ContractInfo) (p : ProcessMeets) (rollbackBlocks : SyncBlockData) :
    Except ℤ SyncBlockData :=
  let hashes := rollbackBlocks.blocks.map CBlock.hash
  let addrs := info.contractAddrs rollbackBlocks.blocks
  match p.rollbackTop with
  | none => .error (-1)
  | some selfNodeHeight =>
    let beginHeight := (rollbackBlocks.entries.head?.map Prod.fst).getD 0
    match p.blockHashes beginHeight selfNodeHeight with
    | none => .error (-2)
    | some blockHashes => blockHashes.foldlM (fun m blockHash =>
        match p.blockByHash blockHash with
        | none => .error (-3)
        | some block => .ok (info.addContractBlock hashes addrs m block)) rollbackBlocks

/-- The calls of `RollBackByHash`, up to the first one that fails, and whether none failed. -/
def rollBackEach (ret : ℕ → ℤ) : ℕ → List CBlock → List Str × Bool
  | _, [] => ([], true)
  | i, block :: blocks =>
    if ret i ≠ 0 then ([block.hash], false)
    else ((block.hash :: (rollBackEach ret (i + 1) blocks).1), (rollBackEach ret (i + 1) blocks).2)

/-- `BlockHelper::RollbackBlocks`: the hashes passed to `RollBackByHash`, the highest blocks first, and
    whether it returned 0. -/
def ContractInfo.rollbackBlocks (info : ContractInfo) (p : ProcessMeets) (rollbackBlocks : SyncBlockData) :
    List Str × Bool :=
  if rollbackBlocks.entries = [] then ([], true)
  else match info.rollbackContractBlock p rollbackBlocks with
    | .error _ => ([], false)
    | .ok extended => rollBackEach p.rollBackByHash 0 (extended.entries.reverse.flatMap fun e => e.2.elems)

/-! ### Process -/

/-- The loop over `_fastSyncBlocks`: its calls of `SaveBlock`, and whether it makes `Process` return. -/
def saveFast (p : ProcessMeets) (nodeHeight : ℕ) (syncType : SaveType) : ℕ → List CBlock → List SaveCall × Bool
  | _, [] => ([], false)
  | i, block :: blocks =>
    let obtainMean : BlockObtainMean :=
      if (heightKey block + 1) % 2 ^ 64 = nodeHeight then .byPreHash else .normal
    let call := saveBlock (p.fast i) block syncType obtainMean
    if call.ret = -2 then ([call], true)
    else if call.ret ≠ 0 then ([call], false)
    else
      let rest := saveFast p nodeHeight syncType (i + 1) blocks
      (call :: rest.1, rest.2)

/-- The loop over `_utxoMissingBlocks`. -/
def saveMissing (p : ProcessMeets) (syncType : SaveType) : ℕ → List CBlock → List SaveCall
  | _, [] => []
  | i, block :: blocks =>
    let call := saveBlock (p.missing i) block syncType .byUtxo
    if call.ret ≠ 0 then [call] else call :: saveMissing p syncType (i + 1) blocks

/-- The loop over `_syncBlocks`. -/
def saveSync (p : ProcessMeets) (syncType : SaveType) : ℕ → List CBlock → List SaveCall
  | _, [] => []
  | i, block :: blocks =>
    if ! p.stopBlocking i then []
    else
      let call := saveBlock (p.sync i) block syncType .normal
      if call.ret ≠ 0 then [call] else call :: saveSync p syncType (i + 1) blocks

/-- What a call of `Process` does: the hashes it passes to `RollBackByHash`, its calls of `SaveBlock`
    for the blocks of each of the three containers, and whether it comes to clear
    `_utxoMissingBlocks`. -/
structure ProcessCalls where
  rolledBack : List Str
  fast : List SaveCall
  missing : List SaveCall
  sync : List SaveCall
  missingCleared : Bool

/-- What `Process` does once it has the height of the node. -/
def HelperState.processCalls (info : ContractInfo) (p : ProcessMeets) (nodeHeight : ℕ) (s : HelperState) :
    ProcessCalls :=
  let rollback := info.rollbackBlocks p (dropNoTimeout p.nowTime s.rollbackBlocks)
  if ! rollback.2 then ⟨rollback.1, [], [], [], false⟩
  else if ! p.chainHeight then ⟨rollback.1, [], [], [], false⟩
  else
    let fast := saveFast p nodeHeight s.syncType 0 s.fastSyncBlocks.elems
    if fast.2 then ⟨rollback.1, fast.1, [], [], false⟩
    else
      ⟨rollback.1, fast.1, saveMissing p s.syncType 0 s.utxoMissingBlocks,
        saveSync p s.syncType 0 s.syncBlocks.elems, true⟩

/-- `BlockHelper::Process`. When it cannot read the height of the node, it returns with the flag set,
    and does nothing from then on. -/
def HelperState.process (info : ContractInfo) (p : ProcessMeets) (s : HelperState) :
    HelperState × Option ProcessCalls :=
  if s.processing then (s, none)
  else match p.top with
    | none => ({ s with processing := true }, none)
    | some nodeHeight =>
      let calls := s.processCalls info p nodeHeight
      ({ s with
          toWaitingSets := .empty
          rollbackBlocks := .empty
          utxoMissingBlocks := if calls.missingCleared then [] else s.utxoMissingBlocks }, some calls)

/-! ### What a call of Process does -/

theorem mem_saveFast {p : ProcessMeets} {nodeHeight : ℕ} {syncType : SaveType} {call : SaveCall} :
    ∀ {i : ℕ} {blocks : List CBlock}, call ∈ (saveFast p nodeHeight syncType i blocks).1 →
      ∃ m, ∃ block ∈ blocks, ∃ obtainMean, call = saveBlock m block syncType obtainMean
  | _, [], h => by cases h
  | i, block :: blocks, h => by
    have hrest (h : call ∈ (saveFast p nodeHeight syncType (i + 1) blocks).1) :
        ∃ m, ∃ b ∈ block :: blocks, ∃ obtainMean, call = saveBlock m b syncType obtainMean := by
      obtain ⟨m, b, hb, obtainMean, hcall⟩ := mem_saveFast h
      exact ⟨m, b, List.mem_cons_of_mem _ hb, obtainMean, hcall⟩
    rw [saveFast] at h
    dsimp only at h
    split_ifs at h
    all_goals
      rcases List.mem_cons.mp h with h | h
      · exact ⟨_, block, List.mem_cons_self, _, h⟩
      · first | cases h | exact hrest h

theorem mem_saveSync {p : ProcessMeets} {syncType : SaveType} {call : SaveCall} :
    ∀ {i : ℕ} {blocks : List CBlock}, call ∈ saveSync p syncType i blocks →
      ∃ m, ∃ block ∈ blocks, ∃ obtainMean, call = saveBlock m block syncType obtainMean
  | _, [], h => by cases h
  | i, block :: blocks, h => by
    rw [saveSync] at h
    dsimp only at h
    split_ifs at h
    · cases h
    · exact ⟨_, block, List.mem_cons_self, _, List.mem_singleton.mp h⟩
    · rcases List.mem_cons.mp h with h | h
      · exact ⟨_, block, List.mem_cons_self, _, h⟩
      · obtain ⟨m, b, hb, obtainMean, hcall⟩ := mem_saveSync h
        exact ⟨m, b, List.mem_cons_of_mem _ hb, obtainMean, hcall⟩

/-- A loop saves blocks of its own set only, and all of them the same way. -/
theorem HelperState.processCalls_saves (info : ContractInfo) (p : ProcessMeets) (nodeHeight : ℕ)
    (s : HelperState) :
    (∀ call ∈ (s.processCalls info p nodeHeight).fast, ∃ m, ∃ block ∈ s.fastSyncBlocks, ∃ obtainMean,
      call = saveBlock m block s.syncType obtainMean) ∧
    ∀ call ∈ (s.processCalls info p nodeHeight).sync, ∃ m, ∃ block ∈ s.syncBlocks, ∃ obtainMean,
      call = saveBlock m block s.syncType obtainMean := by
  unfold processCalls
  dsimp only
  split_ifs
  · simp
  · simp
  · exact ⟨fun call h => mem_saveFast h, by simp⟩
  · exact ⟨fun call h => mem_saveFast h, fun call h => mem_saveSync h⟩

theorem HelperState.processCalls_rolledBack (info : ContractInfo) (p : ProcessMeets) (nodeHeight : ℕ)
    (s : HelperState) : (s.processCalls info p nodeHeight).rolledBack
      = (info.rollbackBlocks p (dropNoTimeout p.nowTime s.rollbackBlocks)).1 := by
  unfold processCalls
  dsimp only
  split_ifs <;> rfl

/-! ### Runs -/

/-- What other threads and the timer do with the helper. -/
inductive HelperAction where
  | addSyncBlock (syncBlockData : SyncBlockData) (type : SaveType)
  | addFastSyncBlock (syncBlockData : SyncBlockData) (type : SaveType)
  | addRollbackBlock (rollbackBlockData : SyncBlockData)
  | addMissingBlock (block : CBlock)
  | process (p : ProcessMeets)

/-- The helper, and what was handed over since `Process` last dealt with all of it: the calls of
    `AddSyncBlock` and `AddFastSyncBlock`, and the blocks to roll back. -/
structure HelperRun where
  helper : HelperState
  syncAdds : List (SyncBlockData × SaveType)
  fastAdds : List (SyncBlockData × SaveType)
  scheduled : List CBlock

/-- The start of a run. -/
def HelperRun.start : HelperRun := ⟨.start, [], [], []⟩

/-- One step: `BlockHelper::AddSyncBlock`, `AddFastSyncBlock`, `AddRollbackBlock`, `AddMissingBlock` or
    `Process`. -/
def HelperRun.step (info : ContractInfo) (r : HelperRun) : HelperAction → HelperRun
  | .addSyncBlock data type =>
    { r with
      helper := { r.helper with toWaitingSets := r.helper.addSyncBlock data, syncType := type }
      syncAdds := r.syncAdds ++ [(data, type)] }
  | .addFastSyncBlock data type =>
    { r with
      helper := { r.helper with toWaitingSets := r.helper.addFastSyncBlock data, syncType := type }
      fastAdds := r.fastAdds ++ [(data, type)] }
  | .addRollbackBlock data =>
    { r with
      helper := { r.helper with rollbackBlocks := data }
      scheduled := r.scheduled ++ data.blocks }
  | .addMissingBlock block =>
    { r with helper := { r.helper with utxoMissingBlocks := r.helper.utxoMissingBlocks ++ [block] } }
  | .process p =>
    match r.helper.process info p with
    | (helper, none) => { r with helper := helper }
    | (helper, some _) => ⟨helper, [], [], []⟩

/-- The run of a list of actions. -/
def HelperRun.run (info : ContractInfo) (acts : List HelperAction) : HelperRun :=
  acts.foldl (HelperRun.step info) .start

/-- The two ways a call of `Process` can go: it does nothing, or it deals with all it has been given. -/
theorem HelperRun.step_process (info : ContractInfo) (r : HelperRun) (p : ProcessMeets) :
    (∃ processing, r.step info (.process p) = { r with helper := { r.helper with processing := processing } } ∧
      (r.helper.processing = true ∨ p.top = none)) ∨
    ∃ missing, r.helper.processing = false ∧ p.top.isSome ∧ r.step info (.process p) =
      ⟨⟨.empty, missing, .empty, r.helper.syncType, false⟩, [], [], []⟩ := by
  rcases hproc : r.helper.processing with _ | _
  · rcases htop : p.top with _ | nodeHeight
    · refine .inl ⟨true, ?_, .inr rfl⟩
      simp [step, HelperState.process, hproc, htop]
    · refine .inr ⟨if (r.helper.processCalls info p nodeHeight).missingCleared then []
        else r.helper.utxoMissingBlocks, rfl, rfl, ?_⟩
      simp only [step, HelperState.process, hproc, htop, Bool.false_eq_true, if_false]
  · refine .inl ⟨true, ?_, .inl rfl⟩
    rw [step, HelperState.process, if_pos hproc, ← hproc]

/-! ### How blocks are saved -/

/-- The blocks are handed over in the same way as the ones that are still waiting. -/
def AddsAgree (r : HelperRun) : HelperAction → Prop
  | .addSyncBlock _ type | .addFastSyncBlock _ type =>
    (r.helper.syncBlocks.elems = [] ∧ r.helper.fastSyncBlocks.elems = []) ∨ r.helper.syncType = type
  | _ => True

instance (r : HelperRun) : (a : HelperAction) → Decidable (AddsAgree r a)
  | .addSyncBlock _ _ | .addFastSyncBlock _ _ => inferInstanceAs (Decidable (_ ∨ _))
  | .addRollbackBlock _ | .addMissingBlock _ | .process _ => .isTrue trivial

/-- The block of a call was handed over, the call saves it as every call that handed it over said, and
    it does not write it unverified when that was `SyncNormal`. -/
def SavedAsAdded (own adds : List (SyncBlockData × SaveType)) (call : SaveCall) : Prop :=
  (∃ c ∈ own, call.block ∈ c.1.blocks) ∧
    ∀ c ∈ adds, call.block ∈ c.1.blocks →
      call.saveType = c.2 ∧ (c.2 = .syncNormal → call.written = true → call.verified = true)

instance (own adds : List (SyncBlockData × SaveType)) (call : SaveCall) :
    Decidable (SavedAsAdded own adds call) := inferInstanceAs (Decidable (_ ∧ _))

/-- A set holds what the calls handed over, and all these calls gave the one type there is. -/
structure AddedAs (set : StdSet BlockTimeAscending) (syncType : SaveType)
    (adds : List (SyncBlockData × SaveType)) : Prop where
  added : ∀ block ∈ set, ∃ c ∈ adds, block ∈ c.1.blocks
  agree : ∀ c ∈ adds, c.1.blocks ≠ [] → c.2 = syncType ∧ set.elems ≠ []

/-- Both sets are as the calls since they were last cleared have left them. -/
def HelperRun.AllAddedAs (r : HelperRun) : Prop :=
  AddedAs r.helper.syncBlocks r.helper.syncType r.syncAdds ∧
    AddedAs r.helper.fastSyncBlocks r.helper.syncType r.fastAdds

theorem AddedAs.empty (syncType : SaveType) : AddedAs .empty syncType [] :=
  ⟨fun _ h => absurd h (StdSet.not_mem_empty _), fun _ h => absurd h List.not_mem_nil⟩

/-- Another type may be set as long as nothing is waiting. -/
theorem AddedAs.setType {set : StdSet BlockTimeAscending} {syncType type : SaveType}
    {adds : List (SyncBlockData × SaveType)} (h : AddedAs set syncType adds)
    (hok : set.elems = [] ∨ syncType = type) : AddedAs set type adds := by
  refine ⟨h.added, fun c hc hne => ?_⟩
  obtain ⟨htype, hset⟩ := h.agree c hc hne
  rcases hok with hempty | rfl
  · exact absurd hempty hset
  · exact ⟨htype, hset⟩

/-- A set that gets more blocks is not empty afterwards. -/
theorem insertAll_ne_nil {set : StdSet BlockTimeAscending} {blocks : List CBlock}
    (h : set.elems ≠ [] ∨ blocks ≠ []) : (set.insertAll blocks).elems ≠ [] := by
  have hstart {set : StdSet BlockTimeAscending} (blocks : List CBlock) (h : set.elems ≠ []) :
      (set.insertAll blocks).elems ≠ [] := by
    obtain ⟨b, hb⟩ := List.exists_mem_of_ne_nil _ h
    exact List.ne_nil_of_mem (StdSet.mem_insertAll_of_mem (s := set) hb)
  rcases h with h | h
  · exact hstart blocks h
  · obtain ⟨b, rest, rfl⟩ := List.exists_cons_of_ne_nil h
    refine hstart rest fun hnil => ?_
    by_cases hset : set.elems = []
    · have hb : b ∈ set.insert b := StdSet.mem_insert_self fun y hy => by
        rw [StdSet.mem_def, hset] at hy
        cases hy
      rw [StdSet.mem_def, hnil] at hb
      cases hb
    · exact hstart [b] hset hnil

theorem AddedAs.add {set : StdSet BlockTimeAscending} {type : SaveType}
    {adds : List (SyncBlockData × SaveType)} (h : AddedAs set type adds) (data : SyncBlockData) :
    AddedAs (set.insertAll data.blocks) type (adds ++ [(data, type)]) := by
  constructor
  · intro block hb
    rcases StdSet.mem_of_mem_insertAll hb with hb | hb
    · obtain ⟨c, hc, hblock⟩ := h.added block hb
      exact ⟨c, List.mem_append_left _ hc, hblock⟩
    · exact ⟨(data, type), List.mem_append_right _ (List.mem_singleton.mpr rfl), hb⟩
  · intro c hc hne
    rcases List.mem_append.mp hc with hc | hc
    · obtain ⟨htype, hset⟩ := h.agree c hc hne
      exact ⟨htype, insertAll_ne_nil (.inl hset)⟩
    · obtain rfl := List.mem_singleton.mp hc
      exact ⟨rfl, insertAll_ne_nil (.inr hne)⟩

/-- One step keeps the sets as the calls have left them. -/
theorem HelperRun.AllAddedAs.step {info : ContractInfo} {r : HelperRun} {a : HelperAction}
    (hagree : AddsAgree r a) (h : r.AllAddedAs) : (r.step info a).AllAddedAs := by
  obtain ⟨hsync, hfast⟩ := h
  cases a with
  | addSyncBlock data type =>
    exact ⟨(hsync.setType (hagree.imp_left And.left)).add data, hfast.setType (hagree.imp_left And.right)⟩
  | addFastSyncBlock data type =>
    exact ⟨hsync.setType (hagree.imp_left And.left), (hfast.setType (hagree.imp_left And.right)).add data⟩
  | addRollbackBlock data => exact ⟨hsync, hfast⟩
  | addMissingBlock block => exact ⟨hsync, hfast⟩
  | process p =>
    rcases step_process info r p with ⟨processing, hstep, -⟩ | ⟨missing, -, -, hstep⟩
    · rw [hstep]
      exact ⟨hsync, hfast⟩
    · rw [hstep]
      exact ⟨.empty _, .empty _⟩

/-- A call for a block of a set saves it as it was handed over. -/
theorem HelperRun.AllAddedAs.savedAsAdded {r : HelperRun} {set : StdSet BlockTimeAscending}
    {own : List (SyncBlockData × SaveType)} (h : r.AllAddedAs) (hown : AddedAs set r.helper.syncType own)
    {call : SaveCall} (hcall : ∃ m, ∃ block ∈ set, ∃ obtainMean,
      call = saveBlock m block r.helper.syncType obtainMean) :
    SavedAsAdded own (r.syncAdds ++ r.fastAdds) call := by
  obtain ⟨m, block, hblock, obtainMean, rfl⟩ := hcall
  obtain ⟨hb, htype⟩ := saveBlock_args m block r.helper.syncType obtainMean
  rw [SavedAsAdded, hb, htype]
  refine ⟨hown.added block hblock, fun c hc hin => ?_⟩
  have hc' : c.2 = r.helper.syncType := by
    rcases List.mem_append.mp hc with hc | hc
    · exact (h.1.agree c hc (List.ne_nil_of_mem hin)).1
    · exact (h.2.agree c hc (List.ne_nil_of_mem hin)).1
  exact ⟨hc'.symm, fun hnormal hwritten => saveBlock_verified hwritten (hc'.symm.trans hnormal)⟩

/-- In every run in which blocks are handed over in the same way as the ones that are still waiting,
    `Process` saves every block as it was handed over. -/
theorem saved_as_added (info : ContractInfo) {acts : List HelperAction}
    (hagree : EveryStep (HelperRun.step info) AddsAgree .start acts) (p : ProcessMeets) :
    ∀ calls ∈ ((HelperRun.run info acts).helper.process info p).2,
      (∀ call ∈ calls.sync, SavedAsAdded (HelperRun.run info acts).syncAdds
        ((HelperRun.run info acts).syncAdds ++ (HelperRun.run info acts).fastAdds) call) ∧
      ∀ call ∈ calls.fast, SavedAsAdded (HelperRun.run info acts).fastAdds
        ((HelperRun.run info acts).syncAdds ++ (HelperRun.run info acts).fastAdds) call := by
  have hinv : (HelperRun.run info acts).AllAddedAs :=
    hagree.invariant (fun r a => HelperRun.AllAddedAs.step) ⟨.empty _, .empty _⟩
  intro calls hcalls
  obtain ⟨nodeHeight, rfl⟩ : ∃ nodeHeight,
      (HelperRun.run info acts).helper.processCalls info p nodeHeight = calls := by
    unfold HelperState.process at hcalls
    split_ifs at hcalls
    · cases hcalls
    · split at hcalls
      · cases hcalls
      · exact ⟨_, Option.mem_some_iff.mp hcalls⟩
  obtain ⟨hfast, hsync⟩ := HelperState.processCalls_saves info p nodeHeight (HelperRun.run info acts).helper
  exact ⟨fun call hcall => hinv.savedAsAdded hinv.1 (hsync call hcall),
    fun call hcall => hinv.savedAsAdded hinv.2 (hfast call hcall)⟩

/-! Two blocks, without contracts, and a call of `Process` by a node of height 9 that can save them but
    not verify them. -/

/-- No block is a contract block. -/
def noContracts : ContractInfo := ⟨fun _ => false, fun _ => []⟩

/-- The blocks, of the heights 5 and 6. -/
def waitingBlock : CBlock := ⟨100, str "b5", str "b4", 5, [], []⟩
def laterBlock : CBlock := ⟨200, str "b6", str "b5", 6, [], []⟩

/-- A call of `SaveBlock` in which the block does not pass `VerifyBlock`, if that is called. -/
def savesUnverified : SaveMeets := ⟨some 9, false, -1, 0, 0, false, false, true⟩

/-- The call of `Process`, given what its calls of `SaveBlock` meet and when it is made. -/
def processMeets (save : SaveMeets) (nowTime : UInt64) : ProcessMeets where
  top := some 9
  nowTime := nowTime
  rollbackTop := some 9
  blockHashes _ _ := some []
  blockByHash _ := none
  rollBackByHash _ := 0
  chainHeight := true
  fast _ := save
  missing _ := save
  sync _ := save
  stopBlocking _ := true

/-- Both blocks are handed over as `SyncNormal`; both are saved so, and verified. -/
theorem saved_as_added_sample :
    let acts := [HelperAction.addSyncBlock (collect [waitingBlock]) .syncNormal,
      .addFastSyncBlock (collect [laterBlock]) .syncNormal]
    EveryStep (HelperRun.step noContracts) AddsAgree .start acts ∧
    ∀ calls ∈ ((HelperRun.run noContracts acts).helper.process noContracts
        (processMeets { savesUnverified with verifyBlock := 0 } 0)).2,
      (∀ call ∈ calls.sync, SavedAsAdded (HelperRun.run noContracts acts).syncAdds
        ((HelperRun.run noContracts acts).syncAdds ++ (HelperRun.run noContracts acts).fastAdds) call) ∧
      ∀ call ∈ calls.fast, SavedAsAdded (HelperRun.run noContracts acts).fastAdds
        ((HelperRun.run noContracts acts).syncAdds ++ (HelperRun.run noContracts acts).fastAdds) call :=
  ⟨by decide, saved_as_added noContracts (by decide) _⟩

/-- The second block is handed over as `SyncFromZero`, and the first one, handed over as `SyncNormal`
    before, is written without having been verified. -/
theorem added_normal_saved_unverified :
    let acts := [HelperAction.addSyncBlock (collect [waitingBlock]) .syncNormal,
      .addFastSyncBlock (collect [laterBlock]) .syncFromZero]
    ¬ ∀ calls ∈ ((HelperRun.run noContracts acts).helper.process noContracts
        (processMeets savesUnverified 0)).2,
      (∀ call ∈ calls.sync, SavedAsAdded (HelperRun.run noContracts acts).syncAdds
        ((HelperRun.run noContracts acts).syncAdds ++ (HelperRun.run noContracts acts).fastAdds) call) ∧
      ∀ call ∈ calls.fast, SavedAsAdded (HelperRun.run noContracts acts).fastAdds
        ((HelperRun.run noContracts acts).syncAdds ++ (HelperRun.run noContracts acts).fastAdds) call := by
  decide

/-! ### Which rollbacks are made -/

theorem mem_filterMap_blocks {m : SyncBlockData} {f : StdSet CBlockCompare → Option (StdSet CBlockCompare)}
    {block : CBlock} :
    block ∈ SyncBlockData.blocks (m.filterMap f) ↔ ∃ e ∈ m.entries, ∃ value ∈ f e.2, block ∈ value := by
  rw [SyncBlockData.blocks, SortedMap.filterMap, List.mem_flatMap]
  constructor
  · rintro ⟨e', he', hb⟩
    obtain ⟨e, he, hf⟩ := List.mem_filterMap.mp he'
    obtain ⟨value, hvalue, rfl⟩ := Option.map_eq_some_iff.mp hf
    exact ⟨e, he, value, hvalue, hb⟩
  · rintro ⟨e, he, value, hvalue, hb⟩
    exact ⟨(e.1, value), List.mem_filterMap.mpr ⟨e, he, by rw [Option.mem_def.mp hvalue]; rfl⟩, hb⟩

/-- A block that has timed out is not taken out. -/
theorem mem_dropNoTimeout {nowTime : UInt64} {m : SyncBlockData} {block : CBlock}
    (hb : block ∈ m.blocks) (htime : noTimeout nowTime block = false) :
    block ∈ (dropNoTimeout nowTime m).blocks := by
  obtain ⟨e, he, hin⟩ := List.mem_flatMap.mp hb
  have hrest : block ∈ e.2.filter fun block => ! noTimeout nowTime block :=
    StdSet.mem_filter.mpr ⟨hin, by simp [htime]⟩
  refine mem_filterMap_blocks.mpr ⟨e, he, _, ?_, hrest⟩
  rw [Option.mem_def, if_neg]
  rintro ⟨-, hnil⟩
  rw [StdSet.mem_def, hnil] at hrest
  cases hrest

/-- Adding a block takes none out. -/
theorem mem_addBlockToMap_of_mem {m : SyncBlockData} {block block' : CBlock} (hb : block ∈ m.blocks) :
    block ∈ (addBlockToMap m block').blocks := by
  obtain ⟨k, hk⟩ := mem_blocks.mp hb
  refine mem_blocks.mpr ⟨k, ?_⟩
  rw [addBlockToMap, SortedMap.find_upsert]
  split_ifs with heq
  · rw [heq] at hk
    exact StdSet.mem_insert_of_mem hk
  · exact hk

theorem ContractInfo.mem_addContractBlock_of_mem {info : ContractInfo} {hashes addrs : List Str}
    {m : SyncBlockData} {block block' : CBlock} (hb : block ∈ m.blocks) :
    block ∈ (info.addContractBlock hashes addrs m block').blocks := by
  have hfold (txs : List CTransaction) : block ∈ (txs.foldl (fun m tx =>
      if info.getContractAddr tx ≠ [] ∧ info.getContractAddr tx ∈ addrs then addBlockToMap m block' else m)
      m).blocks := by
    refine List.foldlRecOn (motive := fun m => block ∈ SyncBlockData.blocks m) txs _ hb fun m hm tx _ => ?_
    split_ifs
    · exact mem_addBlockToMap_of_mem hm
    · exact hm
  unfold addContractBlock
  split_ifs
  · exact hb
  · exact hfold _
  · exact hb

/-- The blocks of the same contracts come in addition. -/
theorem ContractInfo.mem_rollbackContractBlock_of_mem {info : ContractInfo} {p : ProcessMeets}
    {m extended : SyncBlockData} (h : info.rollbackContractBlock p m = .ok extended) {block : CBlock}
    (hb : block ∈ m.blocks) : block ∈ extended.blocks := by
  have hfold (hashes addrs : List Str) : ∀ (blockHashes : List Str) {m' : SyncBlockData},
      block ∈ m'.blocks → blockHashes.foldlM (fun m blockHash => match p.blockByHash blockHash with
        | none => Except.error (-3 : ℤ)
        | some block => .ok (info.addContractBlock hashes addrs m block)) m' = .ok extended →
      block ∈ extended.blocks := by
    intro blockHashes
    induction blockHashes with
    | nil =>
      intro m' hb' h'
      cases h'
      exact hb'
    | cons blockHash blockHashes ih =>
      intro m' hb' h'
      rw [List.foldlM_cons] at h'
      rcases hget : p.blockByHash blockHash with _ | found
      · simp only [hget] at h'
        cases h'
      · simp only [hget] at h'
        exact ih (info.mem_addContractBlock_of_mem hb') h'
  unfold rollbackContractBlock at h
  dsimp only at h
  split at h
  · cases h
  · split at h
    · cases h
    · exact hfold _ _ _ hb h

/-- When no call fails, every block is passed on. -/
theorem rollBackEach_all {ret : ℕ → ℤ} : ∀ {i : ℕ} {blocks : List CBlock},
    (rollBackEach ret i blocks).2 = true → (rollBackEach ret i blocks).1 = blocks.map CBlock.hash
  | _, [], _ => rfl
  | i, block :: blocks, h => by
    rw [rollBackEach] at h ⊢
    split_ifs at h ⊢
    rw [rollBackEach_all h]
    rfl

/-- When `RollbackBlocks` returns 0, it has passed every block on. -/
theorem ContractInfo.rollbackBlocks_all {info : ContractInfo} {p : ProcessMeets} {m : SyncBlockData}
    (h : (info.rollbackBlocks p m).2 = true) {block : CBlock} (hb : block ∈ m.blocks) :
    block.hash ∈ (info.rollbackBlocks p m).1 := by
  unfold rollbackBlocks at h ⊢
  split_ifs at h ⊢ with hnil
  · rw [SyncBlockData.blocks, hnil] at hb
    cases hb
  · split at h
    · cases h
    · next extended hext =>
      rw [rollBackEach_all h]
      refine List.mem_map_of_mem ?_
      obtain ⟨e, he, hin⟩ := List.mem_flatMap.mp (info.mem_rollbackContractBlock_of_mem hext hb)
      exact List.mem_flatMap.mpr ⟨e, List.mem_reverse.mpr he, hin⟩

/-- The block is younger than 60 seconds (times are in microseconds). -/
def YoungerThan60s (nowTime : UInt64) (block : CBlock) : Prop :=
  nowTime.toNat < block.time.toNat + 60 * 1000000

instance (nowTime : UInt64) (block : CBlock) : Decidable (YoungerThan60s nowTime block) :=
  inferInstanceAs (Decidable (_ < _))

/-- A block that is more than 60 seconds old is not left out. -/
theorem noTimeout_eq_false {nowTime : UInt64} {block : CBlock} (hold : ¬ YoungerThan60s nowTime block)
    (hexact : nowTime.toNat ≠ block.time.toNat + 60 * 1000000) : noTimeout nowTime block = false := by
  have hlt : nowTime.toNat < 2 ^ 64 := nowTime.toNat_lt
  have hsum : (60 * 1000000 + block.time : UInt64).toNat = 60 * 1000000 + block.time.toNat := by
    rw [UInt64.toNat_add, show (60 * 1000000 : UInt64).toNat = 60 * 1000000 from rfl]
    refine Nat.mod_eq_of_lt ?_
    rw [YoungerThan60s] at hold
    omega
  rw [noTimeout, decide_eq_false_iff_not, UInt64.le_iff_toNat_le, hsum]
  rw [YoungerThan60s] at hold
  omega

/-- A call of `AddRollbackBlock` names again what is still to be rolled back, and a call of `Process`
    rolls back with success, when no block is exactly 60 seconds old. -/
def KeepsScheduled (info : ContractInfo) (r : HelperRun) : HelperAction → Prop
  | .addRollbackBlock data => ∀ block ∈ r.helper.rollbackBlocks.blocks, block ∈ data.blocks
  | .process p =>
    p.top.isSome ∧ (info.rollbackBlocks p (dropNoTimeout p.nowTime r.helper.rollbackBlocks)).2 = true ∧
      ∀ block ∈ r.helper.rollbackBlocks.blocks, p.nowTime.toNat ≠ block.time.toNat + 60 * 1000000
  | _ => True

instance (info : ContractInfo) (r : HelperRun) : (a : HelperAction) → Decidable (KeepsScheduled info r a)
  | .addRollbackBlock _ => inferInstanceAs (Decidable (∀ _ ∈ _, _))
  | .process _ => inferInstanceAs (Decidable (_ ∧ _ ∧ _))
  | .addSyncBlock _ _ | .addFastSyncBlock _ _ | .addMissingBlock _ => .isTrue trivial

/-- Everything scheduled is still there. -/
def HelperRun.AllScheduled (r : HelperRun) : Prop :=
  r.helper.processing = false ∧ ∀ block ∈ r.scheduled, block ∈ r.helper.rollbackBlocks.blocks

/-- One step keeps what is scheduled. -/
theorem HelperRun.AllScheduled.step {info : ContractInfo} {r : HelperRun} {a : HelperAction}
    (hkeeps : KeepsScheduled info r a) (h : r.AllScheduled) : (r.step info a).AllScheduled := by
  obtain ⟨hproc, hall⟩ := h
  cases a with
  | addSyncBlock data type => exact ⟨hproc, hall⟩
  | addFastSyncBlock data type => exact ⟨hproc, hall⟩
  | addMissingBlock block => exact ⟨hproc, hall⟩
  | addRollbackBlock data =>
    refine ⟨hproc, fun block hb => ?_⟩
    rcases List.mem_append.mp hb with hb | hb
    · exact hkeeps block (hall block hb)
    · exact hb
  | process p =>
    rcases step_process info r p with ⟨_, -, hidle⟩ | ⟨missing, -, -, hstep⟩
    · rcases hidle with hidle | hidle
      · cases hproc.symm.trans hidle
      · have htop : p.top.isSome := hkeeps.1
        rw [hidle] at htop
        cases htop
    · rw [hstep]
      exact ⟨rfl, fun block hb => by cases hb⟩

/-- In every run in which a call of `AddRollbackBlock` names again what is still to be rolled back, and
    in which no block is exactly 60 seconds old when `Process` is called, the next call of `Process`
    passes everything scheduled to `RollBackByHash`, except the blocks younger than 60 seconds. -/
theorem scheduled_rolled_back (info : ContractInfo) {acts : List HelperAction} {p : ProcessMeets}
    (hkeeps : EveryStep (HelperRun.step info) (KeepsScheduled info) .start (acts ++ [.process p])) :
    ∃ calls ∈ ((HelperRun.run info acts).helper.process info p).2,
      ∀ block ∈ (HelperRun.run info acts).scheduled,
        ¬ YoungerThan60s p.nowTime block → block.hash ∈ calls.rolledBack := by
  obtain ⟨hacts, ⟨htop, hret, hexact⟩, -⟩ := everyStep_append.mp hkeeps
  obtain ⟨hproc, hall⟩ : (HelperRun.run info acts).AllScheduled :=
    hacts.invariant (fun r a => HelperRun.AllScheduled.step) ⟨rfl, fun block hb => by cases hb⟩
  obtain ⟨nodeHeight, htop⟩ := Option.isSome_iff_exists.mp htop
  refine ⟨(HelperRun.run info acts).helper.processCalls info p nodeHeight, ?_, fun block hb hold => ?_⟩
  · rw [HelperState.process, if_neg (by rw [hproc]; decide), htop]
    rfl
  · rw [HelperState.processCalls_rolledBack]
    have hwaiting := hall block hb
    exact info.rollbackBlocks_all hret
      (mem_dropNoTimeout hwaiting (noTimeout_eq_false hold (hexact block hwaiting)))

/-- Two blocks, an hour old, are rolled back one after the other. -/
theorem scheduled_rolled_back_sample :
    let meets := processMeets savesUnverified 3600000000
    let acts := [HelperAction.addRollbackBlock (collect [waitingBlock]), .process meets,
      .addRollbackBlock (collect [laterBlock])]
    EveryStep (HelperRun.step noContracts) (KeepsScheduled noContracts) .start (acts ++ [.process meets]) ∧
    ∃ calls ∈ ((HelperRun.run noContracts acts).helper.process noContracts meets).2,
      ∀ block ∈ (HelperRun.run noContracts acts).scheduled,
        ¬ YoungerThan60s meets.nowTime block → block.hash ∈ calls.rolledBack :=
  ⟨by decide, scheduled_rolled_back noContracts (by decide)⟩

/-- Both are scheduled, height by height, before `Process` is called: the first one is lost. -/
theorem scheduled_rollback_lost :
    let meets := processMeets savesUnverified 3600000000
    let acts := [HelperAction.addRollbackBlock (collect [waitingBlock]), .addRollbackBlock (collect [laterBlock])]
    (noContracts.rollbackBlocks meets (dropNoTimeout meets.nowTime
      (HelperRun.run noContracts acts).helper.rollbackBlocks)).2 = true ∧
    ¬ ∃ calls ∈ ((HelperRun.run noContracts acts).helper.process noContracts meets).2,
      ∀ block ∈ (HelperRun.run noContracts acts).scheduled,
        ¬ YoungerThan60s meets.nowTime block → block.hash ∈ calls.rolledBack := by
  decide

end Tfs.Ca
