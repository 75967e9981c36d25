import Tfs.Evm.Transfer
import Tfs.Mpt.Trie
import Tfs.Utils.ContractUtils

/-! The EVM host (`ca/evm/evm_host.cpp`, `MakeHost` of `ca/evm/evm_environment.cpp`).

    The virtual machine runs a contract and asks the host for everything outside it: storage,
    balances, transfers, logs, nested calls. The host keeps one account per address (code, a cache of
    storage slots and the storage trie) and the ledgers of the transaction. A nested call prepares
    the host and then runs the machine again on the same host; the machine itself is a parameter. -/

namespace Tfs.Evm
open Tfs.Mpt (Node TrieEnv trieGet trieUpdate descendKey)

/-! ### Data -/

/-- `evmc_status_code`. -/
inductive StatusCode where
  | success
  | failure
  | revert
  | outOfGas
  | invalidInstruction
  | undefinedInstruction
  | stackOverflow
  | stackUnderflow
  | badJumpDestination
  | invalidMemoryAccess
  | callDepthExceeded
  | staticModeViolation
  | precompileFailure
  | contractValidationFailure
  | argumentOutOfRange
  | wasmUnreachableInstruction
  | wasmTrap
  | insufficientBalance
  | internalError
  | rejected
  | outOfMemory
  deriving DecidableEq, Repr

/-- `evmc_call_kind`. -/
inductive CallKind where
  | call
  | delegatecall
  | callcode
  | create
  | create2
  | eofcreate
  deriving DecidableEq, Repr

/-- `evmc_message`, without what only the machine reads (gas, depth, flags). -/
structure Message where
  kind : CallKind
  recipient : Address
  sender : Address
  input : Str
  value : BitVec 256
  create2Salt : Bytes32
  codeAddress : Address
  deriving DecidableEq, Repr

/-- `evmc::Result`, without gas. -/
structure CallResult where
  statusCode : StatusCode
  output : Str
  createAddress : Option Address
  deriving DecidableEq, Repr

/-- `evmc_access_status`. -/
inductive AccessStatus where
  | cold
  | warm
  deriving DecidableEq, Repr

/-- `evmc_storage_status`, as far as the host uses it. -/
inductive StorageStatus where
  | assigned
  | added
  | deleted
  | modified
  deriving DecidableEq, Repr

/-- `StorageValue`. -/
structure StorageValue where
  value : Bytes32
  dirty : Bool
  accessStatus : AccessStatus
  deriving DecidableEq, Repr

/-- The value a slot starts with. -/
def StorageValue.fresh : StorageValue := ⟨Bytes32.zero, false, .cold⟩

/-- The trie of an account: the address its store keys begin with, and its root. -/
structure StorageRoot where
  contractAddr : Str
  root : Node

/-- `TfsAccount`, without the fields nothing reads. -/
structure TfsAccount where
  code : Str
  storage : StdMap Bytes32 StorageValue
  storageRoot : StorageRoot

/-- `TfsAccount()`. -/
def TfsAccount.fresh : TfsAccount := ⟨[], .empty, ⟨[], .null⟩⟩

/-- `log_record`. -/
structure LogRecord where
  creator : Address
  data : Str
  topics : List Bytes32
  deriving DecidableEq, Repr

/-- `selfdestruct_record`. -/
structure SelfdestructRecord where
  selfdestructed : Address
  beneficiary : Address
  deriving DecidableEq, Repr

/-- The books of a transaction: what the host keeps besides the accounts. The records that are only
    written (`recorded_calls`, `recorded_blockhashes`) and the transaction context are left out. -/
structure Books where
  recordedLogs : List LogRecord
  recordedSelfdestructs : List SelfdestructRecord
  dbSpendMap : StdMap Str UInt64
  nonceCache : ℤ
  createdContract : StdMap Str Str
  coinTransferrings : List TransferInfo
  loadContract : List Str

/-- `EvmHost`. -/
structure Host extends Books where
  accounts : StdMap Address TfsAccount
  recordedAccountAccesses : List Address

/-- `EvmHost(contractDataCache)`. -/
def Host.fresh : Host := ⟨⟨[], [], .empty, 0, .empty, [], []⟩, .empty, []⟩

/-- What the host calls outside itself: the database and its caches, the hash functions, the
    precompiled contracts and whether a virtual machine can be made. -/
structure HostEnv where
  /-- the RLP library -/
  codec : Rlp.Codec
  /-- `contractDataCache`, empty for a null pointer -/
  contractDataCache : StdMap Str Str
  /-- `DBReader::GetMptValueByMptKey` -/
  mpt : StdMap Str Str
  /-- `GetBalanceByUtxo`, zero where it fails -/
  balanceByUtxo : Str → UInt64
  /-- `DBReader::GetContractCodeByContractAddr` -/
  contractCode : StdMap Str Str
  /-- `GetContractRootHash`, `none` where it fails -/
  contractRootHash : StdMap Str Str
  /-- `GenerateAddr` -/
  generateAddr : Str → Str
  /-- `Keccak256Crypt`, hexadecimal text -/
  keccak256Crypt : Str → Str
  /-- `ethash::keccak256`, bytes -/
  keccak256 : Str → Str
  /-- `evmone::state::call_precompile` -/
  callPrecompile : Message → Option CallResult
  /-- whether `evmc_create_evmone` gives a compatible machine -/
  evmInstance : Bool
  /-- `MakeTxContext` -/
  makeTxContext : ℤ
  /-- `evm_environment::GetNonce` -/
  getNonce : Str → ℤ

variable (env : HostEnv)

/-- `evm_utils::EvmAddrToString` with the hash function of `env`. -/
def HostEnv.addrString (addr : Address) : Str := evmAddrToString env.keccak256Crypt addr

/-- What the trie of a contract reads from. -/
def HostEnv.trieEnv (contractAddr : Str) : TrieEnv :=
  ⟨env.codec, contractAddr, env.contractDataCache, env.mpt⟩

/-- `evm_utils::GetContractCode`: the return code and the code. -/
def getContractCode (contractAddress : Str) : ℤ × Str :=
  match env.contractCode contractAddress with
  | none => (1, [])
  | some strCode => if stringTobytes strCode = [] then (-4, []) else (0, stringTobytes strCode)

/-! ### Accounts -/

/-- `accounts[addr]`: a missing account is made. -/
def Host.account (h : Host) (addr : Address) : TfsAccount := (h.accounts addr).getD .fresh

/-- Writing an account back. -/
def Host.setAccount (h : Host) (addr : Address) (acc : TfsAccount) : Host :=
  { h with accounts := h.accounts.set addr acc }

/-- `TfsAccount::set_code`. -/
def TfsAccount.setCode (acc : TfsAccount) (code : Str) : TfsAccount := { acc with code := code }

/-- `TfsAccount::CreateTrie`; `none` where reading the root throws. -/
def TfsAccount.createTrie (acc : TfsAccount) (rootHash contractAddr : Str) : Option TfsAccount :=
  if rootHash = [] then some { acc with storageRoot := ⟨contractAddr, .null⟩ }
  else (descendKey (env.trieEnv contractAddr) rootHash).map fun root =>
    { acc with storageRoot := ⟨contractAddr, root⟩ }

/-- The record of the first 200 accesses. -/
def Host.pushAccess (h : Host) (addr : Address) : Host :=
  { h with recordedAccountAccesses := if h.recordedAccountAccesses.length < 200 then
      h.recordedAccountAccesses ++ [addr] else h.recordedAccountAccesses }

/-- `EvmHost::record_account_access`. -/
def recordAccountAccess (h : Host) (addr : Address) : Host :=
  if ((h.accounts addr).map fun acc => acc.code).getD [] ≠ [] then h.pushAccess addr
  else if (getContractCode env (env.addrString addr)).1 < 0
      ∨ (getContractCode env (env.addrString addr)).2 = [] then h.pushAccess addr
  else (h.pushAccess addr).setAccount addr
    ((h.account addr).setCode (getContractCode env (env.addrString addr)).2)

/-! ### Storage -/

/-- `storageRoot->Get(key)` on an account: the answer and the account afterwards. -/
def trieGetOf (acc : TfsAccount) (key : Bytes32) : Option (Str × TfsAccount) :=
  (trieGet (env.trieEnv acc.storageRoot.contractAddr) acc.storageRoot.root (Rlp.toHex key.1)).map
    fun r => (r.1, { acc with storageRoot := { acc.storageRoot with root := r.2 } })

/-- `storageRoot->Update(key, value)` on an account. -/
def trieUpdateOf (acc : TfsAccount) (key value : Bytes32) : Option TfsAccount :=
  (trieUpdate (env.trieEnv acc.storageRoot.contractAddr) acc.storageRoot.root (Rlp.toHex key.1)
    (Rlp.toHex value.1)).map fun root =>
      { acc with storageRoot := { acc.storageRoot with root := root } }

/-- The word of a trie value. -/
def wordOf (mptv : Str) : Bytes32 := (evmcFromHexInto 32 mptv).getD Bytes32.zero

/-- The cached value of a slot, zero when there is none. -/
def slotValue (acc : TfsAccount) (key : Bytes32) : Bytes32 :=
  ((acc.storage key).map fun slot => slot.value).getD Bytes32.zero

/-- `EvmHost::get_storage`: the value, and the host, whose trie may have loaded nodes. The slot cache
    is asked where the trie has nothing. -/
def getStorage (h : Host) (addr : Address) (key : Bytes32) : Option (Bytes32 × Host) :=
  let h := recordAccountAccess env h addr
  match h.accounts addr with
  | none => some (Bytes32.zero, h)
  | some acc => (trieGetOf env acc key).map fun r =>
    (if r.1 ≠ [] then wordOf r.1 else slotValue acc key, h.setAccount addr r.2)

/-- What `set_storage` does to the cached slot, from the trie's answer. -/
def writeSlot (old : StorageValue) (mptv : Str) (value : Bytes32) : StorageStatus × StorageValue :=
  if mptv ≠ [] then
    -- the cache takes the value before the write, not the written one
    (.added, { old with value := wordOf mptv, dirty := true })
  else if old.value = value then (.assigned, old)
  else
    (if old.dirty then .assigned
      else if old.value = Bytes32.zero then .added
      else if value ≠ Bytes32.zero then .modified
      else .deleted, { old with value := value, dirty := true })

/-- The trie write of `set_storage`, left out where the trie has the value already. -/
def writeTrie (acc : TfsAccount) (mptv : Str) (key value : Bytes32) : Option TfsAccount :=
  if mptv ≠ [] ∧ wordOf mptv = value then some acc else trieUpdateOf env acc key value

/-- `EvmHost::set_storage`. -/
def setStorage (h : Host) (addr : Address) (key value : Bytes32) :
    Option (StorageStatus × Host) := do
  let h := recordAccountAccess env h addr
  let acc := h.account addr
  let old := (acc.storage key).getD .fresh
  let r ← trieGetOf env acc key
  let acc ← writeTrie env r.2 r.1 key value
  let w := writeSlot old r.1 value
  some (w.1, h.setAccount addr { acc with storage := acc.storage.set key w.2 })

/-- `EvmHost::access_storage`. -/
def accessStorage (h : Host) (addr : Address) (key : Bytes32) : AccessStatus × Host :=
  let acc := h.account addr
  let value := (acc.storage key).getD .fresh
  (value.accessStatus,
    h.setAccount addr { acc with storage := acc.storage.set key { value with accessStatus := .warm } })

/-! ### Coins -/

/-- What `get_balance` answers, as the number in its low eight bytes. -/
def balanceOf (h : Host) (addr : Address) : UInt64 :=
  let addrStr := env.addrString addr
  let amount := h.coinTransferrings.foldl
    (fun amount iter => if iter.toAddr = addrStr then amount + iter.amount else amount)
    (env.balanceByUtxo addrStr)
  match h.dbSpendMap addrStr with
  | some spent => if spent ≤ amount then amount - spent else amount
  | none => amount

/-- `EvmHost::get_balance`. -/
def getBalance (h : Host) (addr : Address) : UInt64 × Host :=
  let h := recordAccountAccess env h addr
  (balanceOf env h addr, h)

/-- The loop of `selfdestruct`: entries that arrive at `fromAddr` are sent on to `toAddr` and taken off
    `amount`. -/
def redirect (fromAddr toAddr : Str) : List TransferInfo → UInt64 → List TransferInfo × UInt64
  | [], amount => ([], amount)
  | iter :: rest, amount =>
    if iter.amount ≠ 0 ∧ iter.toAddr = fromAddr then
      let r := redirect fromAddr toAddr rest (amount - iter.amount)
      ({ iter with toAddr := toAddr } :: r.1, r.2)
    else
      let r := redirect fromAddr toAddr rest amount
      (iter :: r.1, r.2)

/-- `EvmHost::selfdestruct`. -/
def selfdestruct (h : Host) (addr beneficiary : Address) : Host :=
  let h := recordAccountAccess env h addr
  let h := { h with recordedSelfdestructs := h.recordedSelfdestructs ++ [⟨addr, beneficiary⟩] }
  let fromAddr := env.addrString addr
  let toAddr := env.addrString beneficiary
  let (value, h) := getBalance env h addr
  let r := redirect fromAddr toAddr h.coinTransferrings value
  { h with coinTransferrings := r.1 ++ [⟨fromAddr, toAddr, r.2⟩] }

/-- `EvmHost::emit_log`. -/
def emitLog (h : Host) (log : LogRecord) : Host := { h with recordedLogs := h.recordedLogs ++ [log] }

/-- `getContractTransfer` on the host: its ledgers as the loop left them, the entries to add, and
    whether it returned zero. -/
def Host.transfer (h : Host) (amount : UInt64) (fromAddr toAddr : Str) : Host × Bool :=
  let r := getContractTransfer env.balanceByUtxo h.coinTransferrings h.dbSpendMap amount fromAddr toAddr
  if r.ret ≠ 0 then ({ h with coinTransferrings := r.coins, dbSpendMap := r.spend }, false)
  else ({ h with coinTransferrings := r.coins ++ r.info, dbSpendMap := r.spend }, true)

/-! ### Calls -/

/-- How far a call gets before the machine runs: it has returned, the code of the target is to be
    run, or init code that creates `contractAddress`. -/
inductive Entry where
  | returned (result : CallResult)
  | execute
  | create (contractAddress : Str)
  deriving DecidableEq, Repr

/-- `evmc_failure_result` and `evmc_success_result`. -/
def plainResult (statusCode : StatusCode) : CallResult := ⟨statusCode, [], none⟩

/-- `dev::toUint64(dev::fromBigEndian<dev::u256>(..))` of the message's value. -/
def Message.amount (msg : Message) : UInt64 := UInt64.ofNat msg.value.toNat

/-- `EvmHost::calculateCreate2Address`. -/
def calculateCreate2Address (msg : Message) : Str :=
  let seed := [0xff] ++ msg.sender.1 ++ msg.create2Salt.1 ++ env.keccak256 msg.input
  let base := (env.keccak256 seed).drop 12
  env.addrString (if hb : (base.take 20).length = 20 then ⟨base.take 20, hb⟩
    else ⟨List.replicate 20 0, length_zeroBytes⟩)

/-- `EvmHost::createContract` up to the run of the machine. -/
def createEnter (h : Host) (amount : UInt64) (fromAddr contractAddress : Str) : Host × Entry :=
  match h.transfer env amount fromAddr contractAddress with
  | (h, false) => (h, .returned (plainResult .failure))
  | (h, true) =>
    let recipient := stringToEvmAddr contractAddress
    let acc := { h.account recipient with storageRoot := ⟨env.addrString recipient, .null⟩ }
    let h := h.setAccount recipient acc
    if env.evmInstance then (h, .create contractAddress)
    else (h, .returned (plainResult .failure))

/-- `EvmHost::createContract` after a run of the machine that returned `output`. -/
def createLeave (h : Host) (contractAddress output : Str) : Host × CallResult :=
  let runtimeCode := Rlp.toHex output
  let h := { h with createdContract := h.createdContract.set contractAddress runtimeCode }
  match evmcFromHex runtimeCode with
  | none => (h, plainResult .failure)
  | some code =>
    let recipient := stringToEvmAddr contractAddress
    (h.setAccount recipient ((h.account recipient).setCode code),
      ⟨.success, [], some recipient⟩)

/-- The code lookup of `call`: `inl` where the call returns, else whether the contract was created in
    this transaction. -/
def findCode (h : Host) (contractAddress : Str) : CallResult ⊕ Bool :=
  match h.createdContract contractAddress with
  | some _ => .inr true
  | none =>
    let (foundResult, code) := getContractCode env contractAddress
    if foundResult > 0 then .inl (plainResult .success)
    else if foundResult < 0 then .inl (plainResult .failure)
    else if code = [] then .inl (plainResult .failure)
    else .inr false

/-- `accounts[recipient]` with its new trie, and the contract's name in `loadContract`. -/
def Host.attach (h : Host) (recipient : Address) (acc : TfsAccount) (contractAddress : Str) : Host :=
  { h.setAccount recipient acc with loadContract := h.loadContract ++ [contractAddress] }

/-- Loading the trie of a called contract that was neither created nor loaded in this transaction;
    `inl` where `GetContractRootHash` fails, `none` where reading the root throws. -/
def loadTrie (h : Host) (msg : Message) (contractAddress : Str) (newlyCreatedContract : Bool) :
    Option (CallResult ⊕ Host) :=
  if msg.kind = .call ∧ newlyCreatedContract = false ∧ contractAddress ∉ h.loadContract then
    match env.contractRootHash contractAddress with
    | none => some (.inl (plainResult .failure))
    | some rootHash =>
      ((h.account msg.recipient).createTrie env rootHash contractAddress).map fun acc =>
        .inr (h.attach msg.recipient acc contractAddress)
  else some (.inr h)

/-- `EvmHost::call` from the transfer to the run of the machine. -/
def callPrepare (h : Host) (msg : Message) : Option (Host × Entry) :=
  let contractAddress := env.addrString msg.codeAddress
  if msg.input = [] then some (h, .returned (plainResult .success))
  else match env.callPrecompile msg with
    | some result => some (h, .returned result)
    | none =>
      match findCode env h contractAddress with
      | .inl result => some (h, .returned result)
      | .inr newlyCreatedContract =>
        match loadTrie env h msg contractAddress newlyCreatedContract with
        | none => none
        | some (.inl result) => some (h, .returned result)
        | some (.inr h) =>
          if env.evmInstance then some (h, .execute)
          else some (h, .returned (plainResult .failure))

/-- The address the value of a message goes to. -/
def payee (h : Host) (msg : Message) : Str :=
  match msg.kind with
  | .create => env.generateAddr (env.addrString msg.sender ++ str (toString (h.nonceCache + 1)))
  | .create2 => calculateCreate2Address env msg
  | _ => env.addrString msg.codeAddress

/-- `++nonceCache`. -/
def Host.nextNonce (h : Host) : Host := { h with nonceCache := h.nonceCache + 1 }

/-- `EvmHost::call` up to the run of the machine. -/
def callEnter (h : Host) (msg : Message) : Option (Host × Entry) :=
  let h := recordAccountAccess env h msg.recipient
  if h.recordedSelfdestructs.any fun item => item.selfdestructed = msg.codeAddress then
    some (h, .returned (plainResult .failure))
  else
    let fromAddr := env.addrString msg.sender
    if msg.kind = .create ∨ msg.kind = .create2 then
      some (createEnter env h.nextNonce msg.amount fromAddr (payee env h msg))
    else
      match h.transfer env msg.amount fromAddr (payee env h msg) with
      | (h, false) => some (h, .returned (plainResult .failure))
      | (h, true) => callPrepare env h msg

/-- What a run of the machine ends with: its status and output. -/
structure VmResult where
  statusCode : StatusCode
  output : Str
  deriving DecidableEq, Repr

/-- The rest of a call, from its entry; `vm` is `vm.execute`. -/
def callLeave (vm : Host → Option (Host × VmResult)) : Host × Entry → Option (Host × CallResult)
  | (h, .returned result) => some (h, result)
  | (h, .execute) => do
    let (h, r) ← vm h
    some (h, ⟨r.statusCode, r.output, none⟩)
  | (h, .create contractAddress) => do
    let (h, r) ← vm h
    if r.statusCode ≠ .success then some (h, plainResult .failure)
    else some (createLeave h contractAddress r.output)

/-- `EvmHost::createContract`. -/
def createContract (h : Host) (amount : UInt64) (fromAddr contractAddress : Str)
    (vm : Host → Option (Host × VmResult)) : Option (Host × CallResult) :=
  callLeave vm (createEnter env h amount fromAddr contractAddress)

/-- `EvmHost::call`. -/
def call (h : Host) (msg : Message) (vm : Host → Option (Host × VmResult)) :
    Option (Host × CallResult) :=
  (callEnter env h msg).bind (callLeave vm)

/-! ### The host of a transaction -/

/-- The two kinds of contract transaction. -/
inductive ContractType where
  | deployContract
  | callContract
  deriving DecidableEq, Repr

/-- `MakeHost` on a fresh host, whose only account afterwards is the recipient's. -/
def makeHost (contractType : ContractType) (sender recipient : Str) (transferAmount : UInt64)
    (code : Str) : Except Exit Host := do
  Exit.when (env.makeTxContext < 0) (-1)
  let nonce := env.getNonce sender
  Exit.when (nonce < 0) (-2)
  let acc := match contractType with
    | .deployContract => TfsAccount.fresh
    | .callContract => TfsAccount.fresh.setCode code
  let contractRootHash := match contractType with
    | .deployContract => some []
    | .callContract => env.contractRootHash recipient
  match contractRootHash with
  | none => .error (.ret (-3))
  | some rootHash =>
    match acc.createTrie env rootHash recipient with
    | none => .error .exception
    | some acc => .ok (({ Host.fresh with
        nonceCache := nonce
        coinTransferrings := [⟨sender, recipient, transferAmount⟩] } : Host).setAccount
          (stringToEvmAddr recipient) acc)

/-! ### A small world for examples -/

/-- The address of twenty equal bytes. -/
def sampleAddr (b : UInt8) : Address := ⟨List.replicate 20 b, List.length_replicate⟩

/-- Keccak-256 of the texts of three addresses. -/
def sampleKeccak (s : Str) : Str :=
  if s = List.replicate 40 49 then
    str "2d6ca42d0b5f46b311277710cd2dcf95bd59948e0957e7e167ebbf11ac592fc3"
  else if s = List.replicate 40 50 then
    str "d9c3d07fe8d65e53430f885e4ba47ea1d6e587407f9cd6016c0d60fdc1441f8c"
  else if s = List.replicate 40 51 then
    str "676b1295d28a7a1cdd66d96cb26985bfb59c0ae7f09046518c51fae3c8f2b47e"
  else List.replicate 64 48

/-- An empty database in which the first two addresses are contracts with a one-byte code and the
    first one owns ten coins. -/
def sampleEnv : HostEnv where
  codec := Rlp.rlp
  contractDataCache := .empty
  mpt := .empty
  balanceByUtxo a := if a = List.replicate 40 49 then 10 else 0
  contractCode a := if a = List.replicate 40 49 ∨ a = List.replicate 40 50 then some (str "00") else none
  contractRootHash _ := some []
  generateAddr := id
  keccak256Crypt := sampleKeccak
  keccak256 := id
  callPrecompile _ := none
  evmInstance := true
  makeTxContext := 0
  getNonce _ := 0

/-- A plain call between two of the addresses. -/
def sampleCall (sender target : UInt8) (value : BitVec 256) (input : Str) : Message :=
  ⟨.call, sampleAddr target, sampleAddr sender, input, value, Bytes32.zero, sampleAddr target⟩

/-! ### What stays the same

    Accounts and books are apart: storage operations keep the books, and the record of an access keeps
    both the books and every trie. -/

section Frame

variable {env}

@[simp] theorem setAccount_toBooks (h : Host) (addr : Address) (acc : TfsAccount) :
    (h.setAccount addr acc).toBooks = h.toBooks := rfl

theorem setAccount_account (h : Host) (addr a : Address) (acc : TfsAccount) :
    (h.setAccount addr acc).account a = if a = addr then acc else h.account a := by
  by_cases ha : a = addr
  · subst ha; simp [Host.setAccount, Host.account]
  · simp [Host.setAccount, Host.account, StdMap.set_ne _ _ ha, ha]

/-- Recording an access can only set the code of the account. -/
theorem recordAccountAccess_cases (env : HostEnv) (h : Host) (addr : Address) :
    recordAccountAccess env h addr = h.pushAccess addr ∨
      ∃ code, recordAccountAccess env h addr
        = (h.pushAccess addr).setAccount addr ((h.account addr).setCode code) := by
  unfold recordAccountAccess
  split_ifs
  · exact .inl rfl
  · exact .inl rfl
  · exact .inr ⟨_, rfl⟩

@[simp] theorem recordAccountAccess_toBooks (h : Host) (addr : Address) :
    (recordAccountAccess env h addr).toBooks = h.toBooks := by
  rcases recordAccountAccess_cases env h addr with heq | ⟨code, heq⟩ <;> rw [heq] <;> rfl

/-- Recording an access leaves every trie and slot cache as it was. -/
theorem recordAccountAccess_account (h : Host) (addr a : Address) :
    ∃ code, (recordAccountAccess env h addr).account a = (h.account a).setCode code := by
  rcases recordAccountAccess_cases env h addr with heq | ⟨code, heq⟩
  · exact ⟨(h.account a).code, by rw [heq]; rfl⟩
  · rw [heq, setAccount_account]
    split_ifs with ha
    · subst ha; exact ⟨code, rfl⟩
    · exact ⟨(h.account a).code, rfl⟩

theorem getStorage_toBooks {h h' : Host} {addr : Address} {key v : Bytes32}
    (hget : getStorage env h addr key = some (v, h')) : h'.toBooks = h.toBooks := by
  simp only [getStorage] at hget
  split at hget
  · cases hget; simp
  · obtain ⟨r, -, heq⟩ := Option.map_eq_some_iff.mp hget
    cases heq; simp

theorem setStorage_toBooks {h h' : Host} {addr : Address} {key value : Bytes32} {st : StorageStatus}
    (hset : setStorage env h addr key value = some (st, h')) : h'.toBooks = h.toBooks := by
  simp only [setStorage, Option.bind_eq_bind, Option.bind_eq_some_iff] at hset
  obtain ⟨r, -, acc, -, heq⟩ := hset
  cases heq; simp

@[simp] theorem accessStorage_toBooks (h : Host) (addr : Address) (key : Bytes32) :
    (accessStorage h addr key).2.toBooks = h.toBooks := rfl

/-- What a self-destruction does to the books. -/
theorem selfdestruct_toBooks (h : Host) (addr beneficiary : Address) :
    (selfdestruct env h addr beneficiary).toBooks = { h.toBooks with
      recordedSelfdestructs := h.recordedSelfdestructs ++ [⟨addr, beneficiary⟩]
      coinTransferrings :=
        (redirect (env.addrString addr) (env.addrString beneficiary) h.coinTransferrings
          (balanceOf env h addr)).1
        ++ [⟨env.addrString addr, env.addrString beneficiary,
          (redirect (env.addrString addr) (env.addrString beneficiary) h.coinTransferrings
            (balanceOf env h addr)).2⟩] } := by
  have hbooks : ∀ h : Host, (recordAccountAccess env h addr).toBooks = h.toBooks :=
    fun h => recordAccountAccess_toBooks h addr
  have hbalance : ∀ h₁ h₂ : Host, h₁.coinTransferrings = h₂.coinTransferrings →
      h₁.dbSpendMap = h₂.dbSpendMap → balanceOf env h₁ addr = balanceOf env h₂ addr := by
    intro h₁ h₂ hc hs
    simp only [balanceOf, hc, hs]
  simp only [selfdestruct, getBalance, hbooks]
  rw [hbalance _ h]
  · simp only [hbooks]
  · simp only [hbooks]

/-- The code a creation returned always converts, so `createContract` succeeds after a good run. -/
theorem createLeave_eq (h : Host) (contractAddress output : Str) :
    createLeave h contractAddress output =
      (({ h with createdContract :=
          h.createdContract.set contractAddress (Rlp.toHex output) } : Host).setAccount
        (stringToEvmAddr contractAddress)
        ((h.account (stringToEvmAddr contractAddress)).setCode output),
      ⟨.success, [], some (stringToEvmAddr contractAddress)⟩) := by
  simp only [createLeave, evmcFromHex_toHex]
  rfl

/-- A call loads the trie of its recipient, with `acc` the account afterwards. -/
def Loads (env : HostEnv) (h : Host) (msg : Message) (acc : TfsAccount) : Prop :=
  msg.kind = .call ∧ h.createdContract (env.addrString msg.codeAddress) = none ∧
    env.addrString msg.codeAddress ∉ h.loadContract ∧
    ∃ rootHash, env.contractRootHash (env.addrString msg.codeAddress) = some rootHash ∧
      (h.account msg.recipient).createTrie env rootHash (env.addrString msg.codeAddress) = some acc

theorem findCode_false {h : Host} {contractAddress : Str}
    (hf : findCode env h contractAddress = .inr false) : h.createdContract contractAddress = none := by
  unfold findCode at hf
  split at hf
  · cases hf
  · assumption

theorem loadTrie_cases {h h' : Host} {msg : Message} {newly : Bool}
    (hf : findCode env h (env.addrString msg.codeAddress) = .inr newly)
    (hl : loadTrie env h msg (env.addrString msg.codeAddress) newly = some (.inr h')) :
    h' = h ∨ ∃ acc, Loads env h msg acc ∧
      h' = h.attach msg.recipient acc (env.addrString msg.codeAddress) := by
  unfold loadTrie at hl
  split_ifs at hl with hcond
  · obtain ⟨hkind, rfl, hnot⟩ := hcond
    split at hl
    · cases hl
    · rename_i rootHash hroot
      obtain ⟨acc, hacc, heq⟩ := Option.map_eq_some_iff.mp hl
      cases heq
      exact .inr ⟨acc, ⟨hkind, findCode_false hf, hnot, rootHash, hroot, hacc⟩, rfl⟩
  · cases hl
    exact .inl rfl

/-- What `callPrepare` can do: it keeps the host, or, with input for a contract that is found, loads the
    trie of the recipient; it never starts a creation. -/
theorem callPrepare_opens {h h' : Host} {msg : Message} {entry : Entry}
    (hp : callPrepare env h msg = some (h', entry)) :
    (h' = h ∨ ∃ acc, msg.input ≠ [] ∧ env.callPrecompile msg = none ∧
      findCode env h (env.addrString msg.codeAddress) = .inr false ∧ Loads env h msg acc ∧
      h' = h.attach msg.recipient acc (env.addrString msg.codeAddress)) ∧
      ∀ contractAddress, entry ≠ .create contractAddress := by
  simp only [callPrepare] at hp
  by_cases hin : msg.input = []
  · rw [if_pos hin] at hp
    cases hp
    exact ⟨.inl rfl, by simp⟩
  · rw [if_neg hin] at hp
    split at hp
    · cases hp; exact ⟨.inl rfl, by simp⟩
    · rename_i hpre
      split at hp
      · cases hp; exact ⟨.inl rfl, by simp⟩
      · rename_i newly hfind
        split at hp
        · cases hp
        · cases hp; exact ⟨.inl rfl, by simp⟩
        · rename_i h₂ hload
          have hcases : h₂ = h ∨ ∃ acc, msg.input ≠ [] ∧ env.callPrecompile msg = none ∧
              findCode env h (env.addrString msg.codeAddress) = .inr false ∧ Loads env h msg acc ∧
              h₂ = h.attach msg.recipient acc (env.addrString msg.codeAddress) := by
            rcases loadTrie_cases hfind hload with hsame | ⟨acc, hloads, heq⟩
            · exact .inl hsame
            · have hnewly : newly = false := by
                have hcreated := hloads.2.1
                simp only [findCode, hcreated] at hfind
                split_ifs at hfind
                exact (Sum.inr.inj hfind).symm
              exact .inr ⟨acc, hin, hpre, hnewly ▸ hfind, hloads, heq⟩
          by_cases hvm : env.evmInstance = true
          · rw [if_pos hvm] at hp
            cases hp
            exact ⟨hcases, by simp⟩
          · rw [if_neg hvm] at hp
            cases hp
            exact ⟨hcases, by simp⟩

theorem callPrepare_cases {h h' : Host} {msg : Message} {entry : Entry}
    (hp : callPrepare env h msg = some (h', entry)) :
    (h' = h ∨ ∃ acc, Loads env h msg acc ∧
      h' = h.attach msg.recipient acc (env.addrString msg.codeAddress)) ∧
      ∀ contractAddress, entry ≠ .create contractAddress := by
  obtain ⟨hcases, hentry⟩ := callPrepare_opens hp
  refine ⟨hcases.imp_right ?_, hentry⟩
  rintro ⟨acc, -, -, -, hloads, heq⟩
  exact ⟨acc, hloads, heq⟩

/-- The target of a message has destroyed itself in this transaction. -/
def Destroyed (h : Host) (msg : Message) : Prop :=
  ∃ item ∈ h.recordedSelfdestructs, item.selfdestructed = msg.codeAddress

/-- Whether a message creates a contract. -/
def Message.creates (msg : Message) : Prop := msg.kind = .create ∨ msg.kind = .create2

theorem payee_recordAccountAccess (h : Host) (addr : Address) (msg : Message) :
    payee env (recordAccountAccess env h addr) msg = payee env h msg := by
  have hn : (recordAccountAccess env h addr).nonceCache = h.nonceCache :=
    congrArg Books.nonceCache (recordAccountAccess_toBooks h addr)
  simp only [payee, hn]

/-- A transfer changes the two coin ledgers only. -/
theorem transfer_frame {h h₁ : Host} {amount : UInt64} {fromAddr toAddr : Str} {ok : Bool}
    (ht : h.transfer env amount fromAddr toAddr = (h₁, ok)) :
    ∃ coins spend, h₁ = { h with coinTransferrings := coins, dbSpendMap := spend } := by
  simp only [Host.transfer] at ht
  split_ifs at ht
  · cases ht; exact ⟨_, _, rfl⟩
  · cases ht; exact ⟨_, _, rfl⟩

/-- Whether a transfer goes through is up to the ledgers. -/
theorem transfer_ok_congr {h h₁ : Host} (hcoins : h₁.coinTransferrings = h.coinTransferrings)
    (hspend : h₁.dbSpendMap = h.dbSpendMap) (amount : UInt64) (fromAddr toAddr : Str) :
    (h₁.transfer env amount fromAddr toAddr).2 = (h.transfer env amount fromAddr toAddr).2 := by
  simp only [Host.transfer, hcoins, hspend]
  split_ifs <;> rfl

theorem payee_of_not_creates {msg : Message} (hn : ¬ msg.creates) (h : Host) :
    payee env h msg = env.addrString msg.codeAddress := by
  unfold payee
  split
  · rename_i hk; exact absurd (.inl hk) hn
  · rename_i hk; exact absurd (.inr hk) hn
  · rfl

/-- How a call can begin: its target is gone; or it pays, and then starts a creation, fails for want of
    coins, or prepares the run of the target's code. -/
theorem callEnter_cases {h h' : Host} {msg : Message} {entry : Entry}
    (hc : callEnter env h msg = some (h', entry)) :
    (Destroyed h msg ∧ h' = recordAccountAccess env h msg.recipient ∧
      entry = .returned (plainResult .failure)) ∨
    ¬ Destroyed h msg ∧ ((msg.creates ∧
        createEnter env (recordAccountAccess env h msg.recipient).nextNonce msg.amount
          (env.addrString msg.sender) (payee env h msg) = (h', entry)) ∨
      ¬ msg.creates ∧ ∃ h₁ ok, (recordAccountAccess env h msg.recipient).transfer env msg.amount
          (env.addrString msg.sender) (payee env h msg) = (h₁, ok) ∧
        ((ok = false ∧ h' = h₁ ∧ entry = .returned (plainResult .failure)) ∨
          ok = true ∧ callPrepare env h₁ msg = some (h', entry))) := by
  have hsd : (recordAccountAccess env h msg.recipient).recordedSelfdestructs
      = h.recordedSelfdestructs :=
    congrArg Books.recordedSelfdestructs (recordAccountAccess_toBooks h msg.recipient)
  simp only [callEnter, payee_recordAccountAccess, hsd] at hc
  by_cases hgone : h.recordedSelfdestructs.any (fun item => item.selfdestructed = msg.codeAddress) = true
  · rw [if_pos hgone] at hc
    cases hc
    refine .inl ⟨?_, rfl, rfl⟩
    simpa [Destroyed] using hgone
  · rw [if_neg hgone] at hc
    refine .inr ⟨fun hd => hgone (by simpa [Destroyed] using hd), ?_⟩
    by_cases hcreate : msg.kind = .create ∨ msg.kind = .create2
    · rw [if_pos hcreate] at hc
      exact .inl ⟨hcreate, Option.some.inj hc⟩
    · rw [if_neg hcreate] at hc
      refine .inr ⟨hcreate, ?_⟩
      rcases htr : (recordAccountAccess env h msg.recipient).transfer env msg.amount
        (env.addrString msg.sender) (payee env h msg) with ⟨h₁, ok⟩
      rw [htr] at hc
      cases ok with
      | false =>
        cases hc
        exact ⟨_, false, rfl, .inl ⟨rfl, rfl, rfl⟩⟩
      | true => exact ⟨h₁, true, rfl, .inr ⟨rfl, hc⟩⟩

/-- What `MakeHost` leaves: the books of a fresh host with one entry, and the recipient's account, its
    trie opened on the committed root for a call. -/
theorem makeHost_ok {contractType : ContractType} {sender recipient : Str} {transferAmount : UInt64}
    {code : Str} {h : Host} (hm : makeHost env contractType sender recipient transferAmount code = .ok h) :
    ∃ acc rootHash, h.toBooks = { Host.fresh.toBooks with
        nonceCache := env.getNonce sender
        coinTransferrings := [⟨sender, recipient, transferAmount⟩] } ∧
      (contractType = .callContract → env.contractRootHash recipient = some rootHash) ∧
      (∃ c, (TfsAccount.fresh.setCode c).createTrie env rootHash recipient = some acc) ∧
      ∀ a, h.account a = if a = stringToEvmAddr recipient then acc else .fresh := by
  simp only [makeHost] at hm
  obtain ⟨_, -, hm⟩ := bind_eq_ok.mp hm
  obtain ⟨_, -, hm⟩ := bind_eq_ok.mp hm
  split at hm
  · cases hm
  · rename_i rootHash hroot
    split at hm
    · cases hm
    · rename_i acc hacc
      cases hm
      refine ⟨acc, rootHash, rfl, fun hct => ?_, ?_, fun a => ?_⟩
      · subst hct; exact hroot
      · cases contractType with
        | deployContract => exact ⟨[], hacc⟩
        | callContract => exact ⟨code, hacc⟩
      · rw [setAccount_account]; rfl

end Frame

end Tfs.Evm
