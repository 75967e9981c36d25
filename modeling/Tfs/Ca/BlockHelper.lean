import Tfs.Ca.SyncBlock

/-! The pool of broadcast blocks (`BlockHelper::AddBroadcastBlock` and `DealDoubleSpend` in
    `ca/block_helper.cpp`, `Checker::CheckConflict` in `ca/checker.cpp`).

    A block that arrives is compared with the pool in the order of height and time. The first pooled
    block that spends one of its inputs decides: an earlier one keeps its place and the new block is
    dropped, a later one is taken out. Then the database has its say on the new block, which goes into
    the pool, waits for its predecessor or is dropped. -/

namespace Tfs.Ca

/-! ### Conflicts -/

/-- `TransactionType`. -/
inductive TransactionType where
  | unknown
  | genesis
  | tx
  deriving DecidableEq, Repr

/-- `ContractPreHashStatus`. -/
inductive ContractPreHashStatus where
  | normal
  | dbBlockException
  | memBlockException
  | waiting
  | err
  deriving DecidableEq, Repr

/-- `doubleSpendType`. -/
inductive DoubleSpendType where
  | repeatenDoubleSpend
  | newDoubleSpend
  | oldDoubleSpend
  | invalidDoubleSpend
  | err
  deriving DecidableEq, Repr

/-- What the helper calls outside itself. `δ` is the database; its readers give `none` for every status
    but success. -/
structure HelperEnv (δ : Type) where
  /-- `GetTransactionType` -/
  getTransactionType : CTransaction → TransactionType
  /-- `IsContractBlock` -/
  isContractBlock : CBlock → Bool
  /-- `GenerateAddr` -/
  generateAddr : Str → Str
  /-- `CBlock::ParseFromString` -/
  parseBlock : Str → Option CBlock
  /-- the items of a block's JSON data with the pairs under `contractPreHashKeyName`, contract address
      and previous hash; `none` where parsing throws -/
  parseData : Str → Option (List (Str × List (Str × Str)))
  getBlockTop : δ → Option UInt64
  getBlockByBlockHash : δ → Str → Option Str
  getLatestUtxoByContractAddr : δ → Str → Option Str
  getBlockHashByTransactionHash : δ → Str → Option Str
  getBlockHashesByBlockHeight : δ → UInt64 → UInt64 → Option (List Str)
  getBlocksByBlockHash : δ → List Str → Option (List Str)
  /-- `ca_algorithm::RollBackByHash`: its return value and the database afterwards -/
  rollBackByHash : δ → Str → ℤ × δ

variable {δ : Type} (env : HelperEnv δ)

/-- `vin.vinsign().pub()`. -/
def vinPub (vin : CTxInput) : Str := (vin.vinSign.map CSign.pub).getD []

/-- The inputs of a transaction as `CheckConflict` compares them: previous hash and owner. -/
def spentUtxos (tx : CTransaction) : List Str :=
  tx.utxo.vin.flatMap fun vin => vin.prevOut.map fun prevout =>
    prevout.hash ++ str "_" ++ env.generateAddr (vinPub vin)

/-- `Checker::CheckConflict(tx1, tx2)`: the sorted inputs have a common element. -/
def checkConflictTx (tx1 tx2 : CTransaction) : Bool :=
  (spentUtxos env tx1).any fun utxo => utxo ∈ spentUtxos env tx2

/-- `Checker::CheckConflict(block1, block2)`. -/
def checkConflict (block1 block2 : CBlock) : Bool :=
  block1.txs.any fun tx1 => env.getTransactionType tx1 = .tx && block2.txs.any fun tx2 =>
    env.getTransactionType tx2 = .tx && checkConflictTx env tx1 tx2

/-! ### The helper -/

/-- The part of `BlockHelper` these functions use. The blocks to ask other nodes for
    (`_missingBlocks`) are only written here and left out. -/
structure BlockHelper where
  broadcastBlocks : StdSet BlockTimeAscending
  pendingBlocks : SortedMap ℕ (List (Str × CBlock))
  doubleSpendBlocks : StdMap Str CBlock
  duplicateChecker : StdMap Str (Bool × UInt64)
  /-- `_contractBlocks`, its entries in any order -/
  contractBlocks : List (Str × CBlock)
  /-- the tasks `MakeTxStatusMsg(oldBlock, newBlock)` that were committed -/
  statusMsgs : List (CBlock × CBlock)

/-- `BlockHelper()`. -/
def BlockHelper.fresh : BlockHelper := ⟨.empty, .empty, .empty, .empty, [], []⟩

/-- `AddContractBlock`. -/
def addContractBlock (contractBlocks : List (Str × CBlock)) (block : CBlock) (contractTxPreHash : Str) :
    List (Str × CBlock) :=
  if contractBlocks.length < 1000 then
    contractBlocks.filter (fun e => e.1 ≠ contractTxPreHash) ++ [(contractTxPreHash, block)]
  else contractBlocks

/-- `checkContractBlockCache`. -/
def checkContractBlockCache (contractBlocks : List (Str × CBlock)) (block : CBlock)
    (contractTxPreHash : Str) : ℤ × List (Str × CBlock) :=
  match contractBlocks.find? fun e => e.1 = contractTxPreHash with
  | some e =>
    if e.2.time > block.time then (0, addContractBlock contractBlocks block contractTxPreHash)
    else (-1, contractBlocks)
  | none => (0, addContractBlock contractBlocks block contractTxPreHash)

/-- `CheckContractPreHashStatus`: the status and `DBBlockHash`. -/
def checkContractPreHashStatus (db : δ) (contractAddr memContractPreHash : Str) (blockTime : UInt64) :
    ContractPreHashStatus × Str :=
  if memContractPreHash = [] ∨ contractAddr = [] then (.err, [])
  else match env.getLatestUtxoByContractAddr db contractAddr with
    | none => (.err, [])
    | some dbContractPreHash =>
      if dbContractPreHash = memContractPreHash then (.normal, [])
      else match ((env.getBlockHashByTransactionHash db dbContractPreHash).bind
          (env.getBlockByBlockHash db)).bind env.parseBlock with
        | none => (.err, [])
        | some block =>
          match (env.parseData block.data).bind fun items =>
              items.find? fun item => item.1 = dbContractPreHash with
          | none => (.err, block.hash)
          | some item =>
            if (contractAddr, memContractPreHash) ∈ item.2 then
              (if blockTime > block.time then .memBlockException else .dbBlockException, block.hash)
            else (.waiting, block.hash)

/-- What `checkContractBlock` leaves: its return value, `contractTxPreHash`, `_contractBlocks` and the
    database. -/
structure ContractCheck (δ : Type) where
  ret : ℤ
  contractTxPreHash : Str
  contractBlocks : List (Str × CBlock)
  db : δ

/-- The loops of `checkContractBlock` over the pairs of contract address and previous hash; `keys` are
    the transactions of the block itself. -/
def checkPreHashes (block : CBlock) (keys : List Str) :
    List (Str × Str) → List (Str × CBlock) → δ → ContractCheck δ
  | [], contractBlocks, db => ⟨0, [], contractBlocks, db⟩
  | preHashPair :: rest, contractBlocks, db =>
    if preHashPair.2 ∈ keys then checkPreHashes block keys rest contractBlocks db
    else
      let (status, dbBlockHash) := checkContractPreHashStatus env db preHashPair.1 preHashPair.2 block.time
      match status with
      | .normal =>
        let (ret, contractBlocks) := checkContractBlockCache contractBlocks block preHashPair.2
        if ret ≠ 0 then ⟨-2, [], contractBlocks, db⟩
        else checkPreHashes block keys rest contractBlocks db
      | .memBlockException => ⟨-3, [], contractBlocks, db⟩
      | .dbBlockException =>
        if dbBlockHash = block.hash then checkPreHashes block keys rest contractBlocks db
        else
          let (ret, db) := env.rollBackByHash db dbBlockHash
          if ret ≠ 0 then ⟨-4, [], contractBlocks, db⟩
          else checkPreHashes block keys rest contractBlocks db
      | .waiting =>
        let (ret, contractBlocks) := checkContractBlockCache contractBlocks block preHashPair.2
        if ret ≠ 0 then ⟨-5, [], contractBlocks, db⟩
        else ⟨0, preHashPair.2, contractBlocks, db⟩
      | .err => checkPreHashes block keys rest contractBlocks db

/-- `checkContractBlock`. -/
def checkContractBlock (db : δ) (contractBlocks : List (Str × CBlock)) (block : CBlock) :
    ContractCheck δ :=
  match env.getBlockTop db with
  | none => ⟨-1, [], contractBlocks, db⟩
  | some _ =>
    match env.parseData block.data with
    | none => ⟨-6, [], contractBlocks, db⟩
    | some items =>
      let contractTxPreHashMap := items.filter fun item => item.2 ≠ []
      checkPreHashes env block (contractTxPreHashMap.map Prod.fst)
        (contractTxPreHashMap.flatMap Prod.snd) contractBlocks db

/-- `AddPendingBlock`. -/
def addPendingBlock (db : δ) (pendingBlocks : SortedMap ℕ (List (Str × CBlock))) (block : CBlock) :
    SortedMap ℕ (List (Str × CBlock)) :=
  if (env.getBlockTop db).isSome ∧ pendingBlocks.entries.length < 1000 then
    pendingBlocks.upsert (heightKey block) fun value => value.getD [] ++ [(block.prevHash, block)]
  else pendingBlocks

/-- Where `AddBroadcastBlock` takes a block that got past the pool. -/
inductive Admission where
  | pool
  | pending
  | dropped
  deriving DecidableEq, Repr

/-- The part of `AddBroadcastBlock` that asks the database: the decision, `_contractBlocks` and the
    database afterwards. -/
def askDatabase (db : δ) (contractBlocks : List (Str × CBlock)) (block : CBlock) :
    Admission × List (Str × CBlock) × δ :=
  match env.getBlockTop db with
  | none => (.dropped, contractBlocks, db)
  | some selfNodeHeight =>
    -- the predecessor is looked up before the contract check can roll blocks back
    let prevHashStatus := (env.getBlockByBlockHash db block.prevHash).isSome
    let decision : Admission :=
      if prevHashStatus then
        if block.height.toUInt64 ≤ selfNodeHeight + 1000 then .pool else .dropped
      else .pending
    if env.isContractBlock block then
      let r := checkContractBlock env db contractBlocks block
      if r.ret < 0 ∨ r.contractTxPreHash ≠ [] then (.dropped, r.contractBlocks, r.db)
      else (decision, r.contractBlocks, r.db)
    else (decision, contractBlocks, db)

/-- A pooled block keeps its place against a new one. -/
def keepsPlace (curr block : CBlock) : Bool :=
  (curr.height = block.height && curr.time ≤ block.time) || curr.height < block.height

/-- The block has come before, or lost a double spend. -/
def BlockHelper.seen (h : BlockHelper) (block : CBlock) : Bool :=
  (h.duplicateChecker block.hash).isSome || (h.doubleSpendBlocks block.hash).isSome

/-- What `AddBroadcastBlock` does with a block that has come before. -/
def BlockHelper.repeated (h : BlockHelper) (block : CBlock) (status : Bool) : BlockHelper :=
  if (h.duplicateChecker block.hash).isSome ∧ status then
    { h with duplicateChecker := h.duplicateChecker.set block.hash (status, block.time) }
  else h

/-- The end of `AddBroadcastBlock`: the database decides. -/
def BlockHelper.place (db : δ) (h : BlockHelper) (block : CBlock) : BlockHelper × δ :=
  let (admission, contractBlocks, db) := askDatabase env db h.contractBlocks block
  let h := { h with contractBlocks := contractBlocks }
  match admission with
  | .pool => ({ h with broadcastBlocks := h.broadcastBlocks.insert block }, db)
  | .pending => ({ h with pendingBlocks := addPendingBlock env db h.pendingBlocks block }, db)
  | .dropped => (h, db)

/-- The pooled block that a new block meets first. -/
def BlockHelper.firstConflict (h : BlockHelper) (block : CBlock) : Option CBlock :=
  h.broadcastBlocks.elems.find? fun curr => checkConflict env curr block

/-- `BlockHelper::AddBroadcastBlock`. -/
def addBroadcastBlock (db : δ) (h : BlockHelper) (block : CBlock) (status : Bool) : BlockHelper × δ :=
  if h.seen block then (h.repeated block status, db)
  else
    let h := { h with duplicateChecker := h.duplicateChecker.set block.hash (status, block.time) }
    match h.firstConflict env block with
    | none => h.place env db block
    | some curr =>
      if keepsPlace curr block then
        ({ h with statusMsgs := if status then h.statusMsgs ++ [(curr, block)] else h.statusMsgs }, db)
      else
        -- only the first conflicting block is taken out
        let told := ((h.duplicateChecker curr.hash).map Prod.fst).getD false
        let h := { h with
          statusMsgs := if told then h.statusMsgs ++ [(block, curr)] else h.statusMsgs
          broadcastBlocks := h.broadcastBlocks.eraseFirst fun curr => checkConflict env curr block }
        h.place env db block

/-! ### Double spends against saved blocks -/

/-- A saved block spends the UTXO of one of the owners, in a plain transaction. -/
def spendsUtxo (tx : CTransaction) (missingUtxo : Str) (pBlock : CBlock) : Bool :=
  pBlock.txs.any fun pTx => pTx.txType = 1 && pTx.utxo.vin.any fun pVin =>
    env.generateAddr (vinPub pVin) ∈ tx.utxo.owner && pVin.prevOut.any fun pPrevout =>
      missingUtxo = pPrevout.hash

/-- The height and time rule of `DealDoubleSpend`: the new block is the double spend. Heights are
    compared as `uint64_t` here. -/
def isNewDoubleSpend (block pBlock : CBlock) : Bool :=
  (block.height.toUInt64 = pBlock.height.toUInt64 && block.time ≥ pBlock.time)
    || block.height.toUInt64 > pBlock.height.toUInt64

/-- `_doubleSpendBlocks.insert({block.hash(), block})`. -/
def BlockHelper.addDoubleSpend (h : BlockHelper) (block : CBlock) : BlockHelper :=
  if (h.doubleSpendBlocks block.hash).isSome then h
  else { h with doubleSpendBlocks := h.doubleSpendBlocks.set block.hash block }

/-- `CheckDoubleBlooming`: the sender of the block that lost is told. -/
def BlockHelper.checkDoubleBlooming (h : BlockHelper) (winner loser : CBlock) : BlockHelper :=
  if ((h.duplicateChecker loser.hash).map Prod.fst).getD false then
    { h with statusMsgs := h.statusMsgs ++ [(winner, loser)] }
  else h

/-- `BlockHelper::DealDoubleSpend`, without the block it returns, which has been moved from. -/
def dealDoubleSpend (db : δ) (h : BlockHelper) (block : CBlock) (tx : CTransaction) (missingUtxo : Str) :
    DoubleSpendType × BlockHelper × δ :=
  match env.getBlockTop db with
  | none => (.err, h, db)
  | some nodeHeight =>
    if block.height.toUInt64 > nodeHeight then (.err, h, db)
    else match (env.getBlockHashesByBlockHeight db block.height.toUInt64 nodeHeight).bind
        (env.getBlocksByBlockHash db) with
      | none => (.err, h, db)
      | some blocks =>
        match (blocks.filterMap env.parseBlock).find? (spendsUtxo env tx missingUtxo) with
        | none => (.invalidDoubleSpend, h.addDoubleSpend block, db)
        | some pBlock =>
          if isNewDoubleSpend block pBlock then
            (.newDoubleSpend, (h.addDoubleSpend block).checkDoubleBlooming pBlock block, db)
          else
            let (ret, db) := env.rollBackByHash db pBlock.hash
            if ret ≠ 0 then (.err, h, db)
            else (.oldDoubleSpend, h.checkDoubleBlooming block pBlock, db)

/-! ### What one call does to the pool -/

variable {env}

theorem checkConflictTx_symm (tx1 tx2 : CTransaction) :
    checkConflictTx env tx1 tx2 = checkConflictTx env tx2 tx1 := by
  rw [Bool.eq_iff_iff]
  simp only [checkConflictTx, List.any_eq_true, decide_eq_true_eq]
  exact ⟨fun ⟨u, h1, h2⟩ => ⟨u, h2, h1⟩, fun ⟨u, h1, h2⟩ => ⟨u, h2, h1⟩⟩

/-- Conflicts are mutual. -/
theorem checkConflict_symm (b b' : CBlock) : checkConflict env b b' = checkConflict env b' b := by
  rw [Bool.eq_iff_iff]
  simp only [checkConflict, List.any_eq_true, Bool.and_eq_true, decide_eq_true_eq]
  constructor
  · rintro ⟨tx1, h1, ht1, tx2, h2, ht2, hc⟩
    exact ⟨tx2, h2, ht2, tx1, h1, ht1, by rwa [checkConflictTx_symm]⟩
  · rintro ⟨tx1, h1, ht1, tx2, h2, ht2, hc⟩
    exact ⟨tx2, h2, ht2, tx1, h1, ht1, by rwa [checkConflictTx_symm]⟩

theorem keepsPlace_iff {curr block : CBlock} : keepsPlace curr block = false ↔
    BlockTimeAscending block curr := by
  rw [blockTimeAscending_iff, Bool.eq_false_iff]
  simp only [keepsPlace, ne_eq, Bool.or_eq_true, Bool.and_eq_true, decide_eq_true_eq,
    Int64.lt_iff_toInt_lt, ← Int64.toInt_inj, UInt64.lt_iff_toNat_lt, UInt64.le_iff_toNat_le]
  omega

theorem blockTimeAscending_irrefl (b : CBlock) : ¬ BlockTimeAscending b b := by
  rw [blockTimeAscending_iff]
  rintro (h | ⟨-, h⟩)
  · exact Int64.lt_irrefl h
  · exact UInt64.lt_irrefl _ h

/-- No two blocks of the pool conflict. -/
def ConflictFree (env : HelperEnv δ) (pool : StdSet BlockTimeAscending) : Prop :=
  ∀ b ∈ pool, ∀ b' ∈ pool, b ≠ b' → checkConflict env b b' = false

/-- The database lets a block into the pool. -/
def Admits (env : HelperEnv δ) (db : δ) (h : BlockHelper) (block : CBlock) : Prop :=
  (askDatabase env db h.contractBlocks block).1 = .pool

instance (env : HelperEnv δ) (db : δ) (h : BlockHelper) (block : CBlock) :
    Decidable (Admits env db h block) := inferInstanceAs (Decidable (_ = _))

theorem place_broadcastBlocks (db : δ) (h : BlockHelper) (block : CBlock) :
    (h.place env db block).1.broadcastBlocks = if Admits env db h block
      then h.broadcastBlocks.insert block else h.broadcastBlocks := by
  simp only [BlockHelper.place, Admits]
  split <;> simp_all

/-- The pool after a call: as before; with the block; or with the block in the place of the first one it
    conflicts with, which is gone even where the block does not get in. -/
theorem addBroadcastBlock_pool (db : δ) (h : BlockHelper) (block : CBlock) (status : Bool) :
    (addBroadcastBlock env db h block status).1.broadcastBlocks =
      if h.seen block then h.broadcastBlocks
      else match h.firstConflict env block with
        | none => if Admits env db h block
            then h.broadcastBlocks.insert block else h.broadcastBlocks
        | some curr =>
          if keepsPlace curr block then h.broadcastBlocks
          else if Admits env db h block then
            (h.broadcastBlocks.eraseFirst fun curr => checkConflict env curr block).insert block
          else h.broadcastBlocks.eraseFirst fun curr => checkConflict env curr block := by
  have hmark : ∀ dup, BlockHelper.firstConflict env { h with duplicateChecker := dup } block
      = h.firstConflict env block := fun _ => rfl
  simp only [addBroadcastBlock, hmark]
  by_cases hseen : h.seen block
  · rw [if_pos hseen, if_pos hseen, BlockHelper.repeated]
    split_ifs <;> rfl
  · rw [if_neg hseen, if_neg hseen]
    cases h.firstConflict env block with
    | none => exact place_broadcastBlocks _ _ _
    | some curr =>
      dsimp only
      by_cases hkeep : keepsPlace curr block
      · rw [if_pos hkeep, if_pos hkeep]
      · rw [if_neg hkeep, if_neg hkeep]
        exact place_broadcastBlocks _ _ _

end Tfs.Ca
