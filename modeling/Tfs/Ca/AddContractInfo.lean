import Tfs.Evm.Named
import Tfs.Evm.PrevRandao
import Tfs.Evm.Deploy
import Tfs.Ca.ContractTasks
import Tfs.Lib.Json

/-! One contract transaction is executed (`TransactionCache::_AddContractInfoCache` and
    `GetAndUpdateContractPreHash` in `ca/transaction_cache.cpp`, `DeployContract`, `CallContract`,
    `GetStorage` and `ContractInfoAdd` in `ca/contract.cpp`, the checks of
    `ca/evm/evm_environment.cpp` and the addresses of `ca/evm/evm_manager.cpp`).

    What the transaction says is read from the JSON in its data. The machine then runs on a host of its
    own; what it has written is handed to the transactions that follow, and every contract a call has
    written to is linked to the transaction that wrote to it before. -/

namespace Tfs.Ca
open Tfs.Db Tfs.Evm
open Tfs.Mpt (Trie BlockStorage mptKey storageEntries)

/-! ### What is outside -/

/-- What the machine is told of the block and the gas. -/
structure TxContext where
  blockTimestamp : Int64
  blockPrevRandao : Int64
  blockNumber : Int64
  gas : Int64
  deriving DecidableEq

/-- The EVM: whether one is created, and a compatible one; and a run of it with the code, `none` where it
    takes more than ten seconds. -/
structure Machine where
  created : Option Bool
  execute : HostEnv → TxContext → Str → Message → ListedHost → Option (ListedHost × VmResult)

/-- What the execution of transactions needs besides. -/
structure ExecEnv (φ : Type) where
  db : DBReader
  machine : Machine
  codec : Rlp.Codec
  getsha256hash : Str → Str
  generateAddr : Str → Str
  keccak256Crypt : Str → Str
  keccak256 : Str → Str
  balanceByUtxo : Str → UInt64
  callPrecompile : Message → Option CallResult
  /-- `GetContractRootHash`, which asks the data cache first; `none` where it fails -/
  contractRootHash : StdMap Str Str → StdMap Str Str
  getChainId : ℤ
  kCurrentTransactionVersion : UInt32
  /-- `nlohmann::json::parse`, `none` where it throws -/
  parse : Str → Option (Json φ)
  toUInt32 : φ → UInt32
  toUInt64 : φ → UInt64
  toInt64 : φ → Int64
  isMultiSign : CTransaction → Bool
  /-- `GetCallContractFromAddr`: the return code and the address -/
  getCallContractFromAddr : CTransaction → Bool → ℤ × Str
  /-- `CalculateBlockTimestamp(0)` when the transaction is executed -/
  calculateBlockTimestamp : CTransaction → Int64
  /-- `_dirtyContractMap`: the contracts a transaction was announced with -/
  dirtyContractMap : StdMap Str (List Str)

variable {φ : Type} (env : ExecEnv φ)

/-! ### Addresses -/

/-- `evm_environment::GetNonce`, of any text. -/
def getNonceOf (dbReader : DBReader) (address : Str) : ℤ :=
  match dbReader.getTexts (kDeployerAddr2ContractAddr ++ address) with
  | .ok contractAddresses => contractAddresses.length
  | .error .notFound => 0
  | .error _ => -1

/-- `Evmone::GetLatestContractAddress`, of any text. -/
def latestContractAddress (fromAddr : Str) : Option Str :=
  let nonce := getNonceOf env.db fromAddr
  if nonce < 0 then none else some (env.generateAddr (fromAddr ++ signedDecimal (nonce + 1)))

/-- `Evmone::VerifyContractAddress`. -/
def verifyContractAddressOf (fromAddr contractAddress : Str) : Bool :=
  match latestContractAddress env fromAddr with
  | none => false
  | some result => result == contractAddress

/-- Of an address these are the functions of `Deploy`. -/
theorem latestContractAddress_eq (generateAddr : Str → AddressText)
    (h : ∀ s, env.generateAddr s = (generateAddr s).1) (deployer : AddressText) :
    latestContractAddress env deployer.1
      = (getLatestContractAddress generateAddr env.db deployer).map Subtype.val := by
  have hnonce : getNonceOf env.db deployer.1 = getNonce env.db deployer := rfl
  simp only [latestContractAddress, getLatestContractAddress, getNextNonce, hnonce]
  by_cases hneg : getNonce env.db deployer < 0
  · simp [hneg]
  · have hnext : ¬ getNonce env.db deployer + 1 < 0 := by omega
    simp [hneg, hnext, h]

/-- The host's environment, given the data cache. -/
def ExecEnv.hostEnv (contractDataCache : StdMap Str Str) : HostEnv where
  codec := env.codec
  contractDataCache := contractDataCache
  mpt key := (env.db.readData (kContractMptK ++ key)).toOption
  balanceByUtxo := env.balanceByUtxo
  contractCode contractAddr := (env.db.readData (kContractAddr2ContractCode ++ contractAddr)).toOption
  contractRootHash := env.contractRootHash contractDataCache
  generateAddr := env.generateAddr
  keccak256Crypt := env.keccak256Crypt
  keccak256 := env.keccak256
  callPrecompile := env.callPrecompile
  evmInstance := env.machine.created = some true
  makeTxContext := if env.getChainId < 0 then -2 else 0
  getNonce := getNonceOf env.db

/-! ### What the transaction says -/

/-- `global::ca::VmType::EVM`. -/
def vmTypeEVM : UInt32 := 0

/-- What is read of the data before anything else: the sender, the machine, and of a deployment or a call
    the code or the input, the recipient and the amount. -/
structure ContractTxInfo where
  ownerEvmAddr : Str
  vmType : UInt32
  input : Str
  contractAddress : Str
  contractTransfer : UInt64
  deriving DecidableEq

/-- `json::parse(transaction.data())["TxInfo"]`; exceptions are all caught. -/
def txInfoOf (tx : CTransaction) : Option (Json φ) := do
  let dataJson ← env.parse tx.data
  (dataJson.index (str "TxInfo")).toOption

/-- A text of the object, and a number. -/
def textAt (txInfo : Json φ) (key : String) : Option Str :=
  ((txInfo.index (str key)).bind Json.getString).toOption
def numberAt {α : Type} (ofInt : ℤ → α) (ofFloat : φ → α) (txInfo : Json φ) (key : String) : Option α :=
  ((txInfo.index (str key)).bind (Json.getNumber ofInt ofFloat)).toOption

/-- The first `try` block of `_AddContractInfoCache`. -/
def readTxInfo (tx : CTransaction) : Option ContractTxInfo := do
  let txInfo ← txInfoOf env tx
  let ownerEvmAddr ← if txInfo.contains (str "sender") then textAt txInfo "sender" else some []
  let vmType ← numberAt UInt32.ofInt env.toUInt32 txInfo "virtualMachine"
  let input ← textAt txInfo "input"
  if tx.txType = kTxTypeCallContract then
    if vmType = vmTypeEVM then
      let contractTransfer ← numberAt UInt64.ofInt env.toUInt64 txInfo "transfer"
      let contractAddress ← textAt txInfo "recipient"
      some ⟨ownerEvmAddr, vmType, input, contractAddress, contractTransfer⟩
    else some ⟨ownerEvmAddr, vmType, input, [], 0⟩
  else
    let contractAddress ← textAt txInfo "recipient"
    some ⟨ownerEvmAddr, vmType, input, contractAddress, 0⟩

/-- `evm_environment::GetBlockTimestamp` and `GetBlockPrevRandao`. -/
def getBlockTimestamp (tx : CTransaction) : Int64 :=
  ((txInfoOf env tx).bind fun txInfo => numberAt Int64.ofInt env.toInt64 txInfo "blockTimestamp").getD (-1)
def getBlockPrevRandao (tx : CTransaction) : Int64 :=
  ((txInfoOf env tx).bind fun txInfo => numberAt Int64.ofInt env.toInt64 txInfo "blockPrevRandao").getD (-1)

/-- The sender that `CalculateBlockPrevRandao` reads; an entry has to be there. -/
def dataSender (data : Str) : Option Str := do
  let dataJson ← env.parse data
  let txInfo ← (dataJson.index (str "TxInfo")).toOption
  textAt txInfo "sender"

/-- `evm_environment::VerifyEvmParameters`. -/
def verifyEvmParameters (tx : CTransaction) : ℤ :=
  let transactionBlockTimestamp := getBlockTimestamp env tx
  if transactionBlockTimestamp < 0 then -5
  else if ((env.calculateBlockTimestamp tx).toInt - transactionBlockTimestamp.toInt).natAbs > 20 then -1
  else
    let transactionBlockPrevRandao := getBlockPrevRandao env tx
    if transactionBlockPrevRandao < 0 then -6
    else
      let blockPrevRandao := calculateBlockPrevRandaoOfTx env.generateAddr (dataSender env) tx
      if blockPrevRandao < 0 then -3
      else if blockPrevRandao ≠ transactionBlockPrevRandao then -4
      else 0

/-- What is executed: a deployment, a call, or nothing if the machine is not the EVM. -/
inductive Prepared where
  | deploy (fromAddr code contractAddress : Str) (blockTimestamp blockPrevRandao : Int64)
  | call (fromAddr input : Str) (contractTransfer : UInt64) (contractAddress contractCode : Str)
      (blockTimestamp blockPrevRandao : Int64)
  | notEvm
  deriving DecidableEq

/-- `_AddContractInfoCache` up to `DeployContract` or `CallContract`. -/
def prepare (tx : CTransaction) : Except Exit Prepared := do
  let (ret, fromAddr) := env.getCallContractFromAddr tx (env.isMultiSign tx)
  Exit.when (ret ≠ 0) (-1)
  match readTxInfo env tx with
  | none => .error (.ret (-2))
  | some txInfo =>
    if txInfo.vmType ≠ vmTypeEVM then .ok .notEvm
    else
      Exit.when (txInfo.ownerEvmAddr ≠ fromAddr) (-3)
      Exit.when (verifyEvmParameters env tx < 0) (-99)
      if tx.txType = kTxTypeDeployContract then
        -- the answer of `VerifyContractAddress`, a `bool`, as an `int`
        let ret : ℤ := if verifyContractAddressOf env fromAddr txInfo.contractAddress then 1 else 0
        Exit.when (ret < 0) (ret - 100)
        Exit.when (txInfo.input = []) (-21)
        Exit.when (getBlockTimestamp env tx < 0) (-5)
        Exit.when (getBlockPrevRandao env tx < 0) (-6)
        .ok (.deploy fromAddr txInfo.input txInfo.contractAddress (getBlockTimestamp env tx)
          (getBlockPrevRandao env tx))
      else
        let (foundResult, contractCode) := getContractCode (env.hostEnv .empty) txInfo.contractAddress
        Exit.when (foundResult ≠ 0) (-2)
        Exit.when (getBlockTimestamp env tx < 0) (-5)
        Exit.when (getBlockPrevRandao env tx < 0) (-6)
        .ok (.call fromAddr txInfo.input txInfo.contractTransfer txInfo.contractAddress contractCode
          (getBlockTimestamp env tx) (getBlockPrevRandao env tx))

/-! ### The run of the machine -/

theorem makeHost_accounts {henv : HostEnv} {contractType : ContractType} {sender recipient : Str}
    {transferAmount : UInt64} {code : Str} {h : Host}
    (hm : makeHost henv contractType sender recipient transferAmount code = .ok h) (a : Address) :
    a ∈ [stringToEvmAddr recipient] ↔ (h.accounts a).isSome = true := by
  simp only [makeHost] at hm
  obtain ⟨_, -, hm⟩ := bind_eq_ok.mp hm
  obtain ⟨_, -, hm⟩ := bind_eq_ok.mp hm
  split at hm
  · cases hm
  · split at hm
    · cases hm
    · cases hm
      rw [List.mem_singleton]
      by_cases ha : a = stringToEvmAddr recipient
      · subst ha
        simp [Host.setAccount]
      · simp [Host.setAccount, StdMap.set_ne _ _ ha, ha, Host.fresh]

/-- `MakeHost`, with the one account there is. -/
def makeListedHost (henv : HostEnv) (contractType : ContractType) (sender recipient : Str)
    (transferAmount : UInt64) (code : Str) : Except Exit ListedHost :=
  match hm : makeHost henv contractType sender recipient transferAmount code with
  | .error e => .error e
  | .ok h => .ok ⟨h, [stringToEvmAddr recipient], List.nodup_singleton _, makeHost_accounts hm⟩

/-- `address{}`. -/
def zeroAddress : Address := ⟨List.replicate 20 0, length_zeroBytes⟩

/-- `MakeMessage`: the message, and the gas, which is the sender's balance in the database. -/
def makeMessage (henv : HostEnv) (contractType : ContractType) (sender recipient : Address) (input : Str)
    (contractTransfer : UInt64) : Except Exit (Message × Int64) :=
  match env.db.readData (kAddress2BalanceKey ++ henv.addrString sender) with
  | .error _ => .error (.ret (-1))
  | .ok text =>
    match stol text with
    | none => .error .exception
    | some balance =>
      match contractType with
      | .deployContract => .ok (⟨.create, recipient, sender, [], 0, Bytes32.zero, zeroAddress⟩, balance)
      | .callContract => .ok (⟨.call, recipient, sender, input, BitVec.ofNat 256 contractTransfer.toNat,
          Bytes32.zero, zeroAddress⟩, balance)

/-- `ExecuteByEvmone`: the host, and the output as text. -/
def executeByEvmone (henv : HostEnv) (ctx : TxContext) (code : Str) (message : Message) (host : ListedHost) :
    Except Exit (ListedHost × Str) :=
  match env.machine.created with
  | none => .error (.ret (-1))
  | some false => .error (.ret (-2))
  | some true =>
    match env.machine.execute henv ctx code message host with
    | none => .error (.ret (-3))
    | some (host, result) =>
      if result.statusCode ≠ .success then .error (.ret (-4)) else .ok (host, Rlp.toHex result.output)

/-- `Evmone::DeployContract`. -/
def deployContract (henv : HostEnv) (fromAddr code contractAddress : Str)
    (blockTimestamp blockPrevRandao blockNumber : Int64) : Except Exit (ListedHost × Str) := do
  let host ← Exit.recode (· - 10) (makeListedHost henv .deployContract fromAddr contractAddress 0 [])
  let (message, gas) ← Exit.recode (· - 20) (makeMessage env henv .deployContract (stringToEvmAddr fromAddr)
    (stringToEvmAddr contractAddress) [] 0)
  let (host, output) ← Exit.recode (· - 30) (executeByEvmone env henv
    ⟨blockTimestamp, blockPrevRandao, blockNumber, gas⟩ (stringTobytes code) message host)
  Exit.when (output = []) (-5)
  .ok (host, output)

/-- `Evmone::CallContract`. -/
def callContract (henv : HostEnv) (fromAddr strInput : Str) (contractTransfer : UInt64)
    (contractAddress contractCode : Str) (blockTimestamp blockPrevRandao blockNumber : Int64) :
    Except Exit (ListedHost × Str) := do
  let host ← Exit.recode (· - 10)
    (makeListedHost henv .callContract fromAddr contractAddress contractTransfer contractCode)
  let input := stringTobytes strInput
  Exit.when (input = []) (-1)
  let (message, gas) ← Exit.recode (· - 20) (makeMessage env henv .callContract (stringToEvmAddr fromAddr)
    (stringToEvmAddr contractAddress) input contractTransfer)
  Exit.recode (· - 30) (executeByEvmone env henv
    ⟨blockTimestamp, blockPrevRandao, blockNumber, gas⟩ contractCode message host)

/-! ### What is recorded -/

/-- `TransactionCache::GetAndUpdateContractPreHash`: the hash, empty where there is none, and the cache. -/
def getAndUpdateContractPreHash (dbReader : DBReader) (contractAddress transactionHash : Str)
    (contractPreHashCache : StdMap Str Str) : Str × StdMap Str Str :=
  match contractPreHashCache contractAddress with
  | some strPrevTxHash => (strPrevTxHash, contractPreHashCache.set contractAddress transactionHash)
  | none =>
    match dbReader.getLatestUtxoByContractAddr contractAddress with
    | .error _ => ([], contractPreHashCache)
    | .ok strPrevTxHash =>
      if strPrevTxHash = [] then ([], contractPreHashCache)
      else (strPrevTxHash, contractPreHashCache.set contractAddress transactionHash)

/-- What is known of a transaction after its execution, but for the output. -/
structure ExecutionInfo where
  storage : StdMap Str Str
  creation : StdMap Str Str
  preHash : StdMap Str Str
  log : List LogRecord
  destruction : StdMap Str Str

/-- `root->Save(); root->GetBlockStorage(..)` for an account. -/
def savedTrie (acc : TfsAccount) : Except Exit BlockStorage :=
  match (Trie.save env.getsha256hash env.codec ⟨acc.storageRoot.root, []⟩).getBlockStorage with
  | none => .error .exception
  | some (saved, _) => .ok saved

/-- The account joins `dirtyContract`. -/
def isDirty (saved : BlockStorage) : Bool :=
  saved.dirtyHash ≠ [] ∨ (saved.rootHash.1 ≠ [] ∧ saved.rootHash.2 ≠ [])

/-- What `GetStorage` writes for an account. -/
def writeStorage (jStorage : StdMap Str Str) (contractAddr : Str) (saved : BlockStorage) : StdMap Str Str :=
  match storageEntries contractAddr saved with
  | (none, _) => jStorage
  | (some rootHash, pairs) =>
    pairs.foldl (fun j e => j.set e.1 e.2) (jStorage.set (mptKey contractAddr (str "rootHash")) rootHash)

/-- `Evmone::GetStorage`: the name of every trie with what is stored of it. -/
def savedTries (host : ListedHost) : Except Exit (List (Str × BlockStorage)) :=
  host.accounts.mapM fun account => do
    let saved ← savedTrie env account.2
    .ok (account.2.storageRoot.contractAddr, saved)

/-- The contracts that were written to and not created. -/
def calledContracts (host : Host) (saved : List (Str × BlockStorage)) : List Str :=
  (saved.filter fun e => isDirty e.2 ∧ host.createdContract e.1 = none).map Prod.fst

/-- The loop of `ContractInfoAdd` over these contracts. -/
def addPreHashes (tx : CTransaction) : List Str → StdMap Str Str → StdMap Str Str →
    Except Exit (StdMap Str Str × StdMap Str Str)
  | [], items, contractPreHashCache => .ok (items, contractPreHashCache)
  | callAddress :: rest, items, contractPreHashCache =>
    if callAddress = [] then .error (.ret (-2))
    else
      let (strPrevTxHash, contractPreHashCache) :=
        if tx.version = env.kCurrentTransactionVersion then
          getAndUpdateContractPreHash env.db callAddress tx.hash contractPreHashCache
        else ([], contractPreHashCache)
      if strPrevTxHash = [] then .error (.ret (-3))
      else addPreHashes tx rest (items.set callAddress strPrevTxHash) contractPreHashCache

/-- The loop is for calls; a deployment passes over every contract. -/
def preHashItems (tx : CTransaction) (addresses : List Str) (contractPreHashCache : StdMap Str Str) :
    Except Exit (StdMap Str Str × StdMap Str Str) :=
  if tx.txType = kTxTypeDeployContract then .ok (.empty, contractPreHashCache)
  else addPreHashes env tx addresses .empty contractPreHashCache

/-- The codes of the contracts that destroyed themselves. -/
def destructItems : List SelfdestructRecord → StdMap Str Str → Except Exit (StdMap Str Str)
  | [], items => .ok items
  | it :: rest, items =>
    let contractAddress := evmAddrToString env.keccak256Crypt it.selfdestructed
    match env.db.readData (kContractAddr2ContractCode ++ contractAddress) with
    | .error _ => .error (.ret (-1))
    | .ok contractCode => destructItems rest (items.set contractAddress contractCode)

/-- `Evmone::ContractInfoAdd`. -/
def contractInfoAdd (host : ListedHost) (tx : CTransaction) (contractPreHashCache : StdMap Str Str) :
    Except Exit (ExecutionInfo × StdMap Str Str) := do
  let saved ← savedTries env host
  let (items, contractPreHashCache) ←
    preHashItems env tx (calledContracts host.host saved) contractPreHashCache
  let destruction ← destructItems env host.host.recordedSelfdestructs .empty
  .ok ({ storage := saved.foldl (fun j e => writeStorage j e.1 e.2) .empty
         creation := host.host.createdContract
         preHash := items
         log := host.host.recordedLogs
         destruction := destruction }, contractPreHashCache)

/-- `TransactionCache::_VerifyDirtyContract`. -/
def verifyDirtyContract (transactionHash : Str) (calledContract : List Str) : Bool :=
  match env.dirtyContractMap transactionHash with
  | none => false
  | some found => calledContract.all fun c => c ∈ found

/-- The two caches of `_ExecuteContracts`. -/
structure ExecCaches where
  contractPreHashCache : StdMap Str Str
  contractDataCache : StdMap Str Str

/-- Both at the start. -/
def ExecCaches.start : ExecCaches := ⟨.empty, .empty⟩

/-- What is recorded of a transaction; nothing but an output if the machine was not the EVM. -/
structure ContractRecord where
  info : Option ExecutionInfo
  output : Str

/-- An execution: its transaction, the host the machine left, and the record. -/
structure Execution where
  tx : CTransaction
  host : Option ListedHost
  record : ContractRecord

/-- The run of the machine. -/
def runPrepared (henv : HostEnv) (blockNumber : Int64) : Prepared → Except Exit (Option (ListedHost × Str))
  | .deploy fromAddr code contractAddress blockTimestamp blockPrevRandao =>
    (Exit.recode (· - 100) (deployContract env henv fromAddr code contractAddress blockTimestamp
      blockPrevRandao blockNumber)).map some
  | .call fromAddr input contractTransfer contractAddress contractCode blockTimestamp blockPrevRandao =>
    (Exit.recode (· - 200) (callContract env henv fromAddr input contractTransfer contractAddress contractCode
      blockTimestamp blockPrevRandao blockNumber)).map some
  | .notEvm => .ok none

/-- `_AddContractInfoCache` from the run of the machine to its last check. -/
def execute (blockNumber : Int64) (caches : ExecCaches) (tx : CTransaction) (prepared : Prepared) :
    Except Exit (Execution × ExecCaches) := do
  let run ← runPrepared env (env.hostEnv caches.contractDataCache) blockNumber prepared
  match run with
  | none =>
    Exit.when (! verifyDirtyContract env tx.hash []) (-7)
    .ok (⟨tx, none, ⟨none, []⟩⟩, caches)
  | some (host, output) =>
    let (info, contractPreHashCache) ← Exit.recode (fun _ => -4)
      (contractInfoAdd env host tx caches.contractPreHashCache)
    let calledContract := host.order.map (evmAddrToString env.keccak256Crypt)
    Exit.when (! verifyDirtyContract env tx.hash calledContract) (-7)
    .ok (⟨tx, some host, ⟨some info, output⟩⟩,
      ⟨contractPreHashCache, fun key => (info.storage key).or (caches.contractDataCache key)⟩)

/-- All of `_AddContractInfoCache` before its result is added to the cache. -/
def executeTx (blockNumber : Int64) (caches : ExecCaches) (tx : CTransaction) :
    Except Exit (Execution × ExecCaches) := do
  let prepared ← prepare env tx
  execute env blockNumber caches tx prepared

/-- `TransactionCache::_AddContractInfoCache`: how it ends, and `_contractInfoCache` afterwards. -/
def addContractInfoOf (blockNumber : Int64) (caches : ExecCaches) (tx : CTransaction)
    (contractInfoCache : StdMap Str (ContractInfoEntry ContractRecord)) :
    Except Exit Unit × StdMap Str (ContractInfoEntry ContractRecord) :=
  if ! isContractTransaction tx then (.ok (), contractInfoCache)
  else
    match executeTx env blockNumber caches tx with
    | .error e => (.error e, contractInfoCache)
    | .ok (execution, _) => (.ok (), contractInfoCache.set tx.hash (execution.record, tx.time))

end Tfs.Ca
