import Tfs.Ca.Redeem

/-! The transaction builders behind the RPC interface (`api/interface/rpc_create_transaction.cpp`).

    They were copied from the builders of the node. The caller signs what they return, so nothing is
    signed here; the height comes from the store, the arguments are checked a little differently, and a
    failure is a code with a message in the acknowledgement. -/

namespace Tfs.Api
open Tfs.Db Tfs.Ca

/-- How an RPC builder ends without a transaction: a code and a message, or an uncaught exception. -/
inductive RpcExit where
  | ack (code : ℤ) (message : String)
  | exception
  deriving DecidableEq, Repr

/-- `if (cond) { ack->code = code; ack->message = message; return; }` -/
def RpcExit.when (cond : Bool) (code : ℤ) (message : String) : Except RpcExit Unit :=
  if cond then .error (.ack code message) else .ok ()

/-- A call whose error code is reported with `code` and a message. -/
def RpcExit.report {α : Type} (code : ℤ) (message : ℤ → String) : Except Exit α → Except RpcExit α
  | .error (.ret ret) => .error (.ack code (message ret))
  | .error .exception => .error .exception
  | .ok a => .ok a

/-- What the RPC builders use besides. -/
structure RpcEnv extends BuilderEnv where
  getBlockTop : Option UInt64
  kMinStakeAmt : UInt64
  /-- neither below `KMinCommissionRate` nor above `KMaxCommissionRate`, as doubles compare -/
  commissionInRange : UInt64 → Bool
  /-- the code and the text that a failed qualification check has left (`GetRpcError`); `none`: the code
      is not a number -/
  rpcErrorCode : Option ℤ
  rpcErrorText : String

/-- The acknowledgement of a success. -/
structure TxAck where
  tx : CTransaction
  gas : UInt64
  time : UInt64
  height : UInt64
  txType : VrfAgentType

/-! ### Shared steps -/

/-- One unsigned input per owner, numbered from `n` by `next`. -/
def fillVins (next : UInt32 → UInt32) (utxos : List Utxo) : List Str → UInt32 → CTxUtxo → CTxUtxo
  | [], _, txUtxo => txUtxo
  | owner :: rest, n, txUtxo =>
    fillVins next utxos rest (next n)
      { txUtxo with
        owner := txUtxo.owner ++ [owner]
        vin := txUtxo.vin ++ [⟨prevOutsOf utxos owner, none, n, []⟩] }

/-- The unsigned input that spends the held output. -/
def redeemVin (fromAddr utxoHash : Str) : CTxUtxo :=
  { CTxUtxo.cleared with owner := [fromAddr], vin := [⟨[⟨utxoHash, 1⟩], none, 0, []⟩] }

/-- The transaction as `GenerateGas` sees it. -/
def rpcDraft (env : TxEnv) (txUtxo : CTxUtxo) (data encodedInfo : Str) : CTransaction :=
  { CTransaction.cleared with utxo := txUtxo, data := data, info := encodedInfo, type := env.kTxSign }

/-- `GetBlockTop`. -/
def blockTopHeight (env : RpcEnv) (code : ℤ) (message : String) : Except RpcExit UInt64 :=
  match env.getBlockTop with
  | none => .error (.ack code message)
  | some top => .ok top

/-- `GetBlockTop`, and the height of the block to come. -/
def nextBlockHeight (env : RpcEnv) (code : ℤ) (message : String) : Except RpcExit UInt64 := do
  let height ← blockTopHeight env code message
  .ok (height + 1)

/-- `encodedInfo.size() > 1024`. -/
def checkInfo (encodedInfo : Str) (code : ℤ) : Except RpcExit Unit :=
  RpcExit.when (1024 < encodedInfo.length) code "The information entered exceeds the specified length"

/-- A qualification check: a failure is reported as it was left behind, shifted by `shift`. -/
def checkQualified (env : RpcEnv) (ret shift : ℤ) : Except RpcExit Unit :=
  if ret = 0 then .ok ()
  else match env.rpcErrorCode with
    | none => .error .exception
    | some code => .error (.ack (code + shift) env.rpcErrorText)

/-- The packager: a node that packs for itself is any eligible one. -/
def chooseRpcIdentity (env : TxEnv) (type : VrfAgentType) (allUtxos : Str) (currentTime : UInt64)
    (code : ℤ) (message : ℤ → String) : Except RpcExit Str :=
  if type = .defalut ∨ type = .local then .ok env.getEligibleNodes
  else
    let answer := env.getBlockPackager 0 (allUtxos ++ timeToString currentTime)
    if answer.1 ≠ 0 then .error (.ack code (message answer.1)) else .ok answer.2

/-- The message of a builder that cannot pay. -/
def tooPoor (total expend : UInt64) : String :=
  s!"The total cost = {total.toNat} is less than the cost = \x7b\x7d{expend.toNat}"

/-! ### `ReplaceCreateTxTransaction` -/

/-- `CheckFromaddr`. -/
def checkFromaddr (env : TxEnv) (fromAddr : List Str) : ℤ :=
  if fromAddr.isEmpty then -1
  else if (sortedSet fromAddr).length ≠ fromAddr.length then -2
  else if fromAddr.any fun addr => !env.isValidAddress addr then -3
  else 0

/-- The checks of the recipients. -/
def rpcCheckRecipients (env : TxEnv) (fromAddr : List Str) : List (Str × Int64) → Except RpcExit Unit
  | [] => .ok ()
  | addr :: rest => do
    RpcExit.when (!env.isValidAddress addr.1) (-4) "To address is not  address!"
    RpcExit.when (fromAddr.contains addr.1) (-5) "from address is same with toaddr"
    RpcExit.when (addr.2 ≤ 0) (-6) "Value is zero!"
    rpcCheckRecipients env fromAddr rest

/-- `ReplaceCreateTxTransaction`: the acknowledgement and the pending entries. The outputs are
    registered under the last sender. -/
def replaceCreateTxTransaction (env : RpcEnv) (fromAddr : List Str) (toAddr : Recipients)
    (isFindUtxo : Bool) (encodedInfo : Str) (pending : StdMap Str DoubleSpendsuc) :
    Except RpcExit (TxAck × StdMap Str DoubleSpendsuc) := do
  let height ← nextBlockHeight env (-1) " db get top failed!!"
  RpcExit.when (checkFromaddr env.toTxEnv fromAddr != 0) (-2) "Check parameters failed!"
  RpcExit.when toAddr.entries.isEmpty (-3) "to addr is empty"
  rpcCheckRecipients env.toTxEnv fromAddr toAddr.entries
  checkInfo encodedInfo (-7)
  let expend := toAddr.entries.foldl (fun amount i => amount + i.2.toUInt64) 0
  let found ← RpcExit.report (-8) (fun _ => "FindUtxo failed!")
    (findUtxo env.toUtxoEnv fromAddr kMaxVinSize isFindUtxo)
  RpcExit.when found.2.isEmpty (-9) "Utxo is empty!"
  RpcExit.when (txOwners found.2).isEmpty (-10) "Tx owner is empty!"
  let draft := rpcDraft env.toTxEnv (fillVins (· + 1) found.2 (txOwners found.2) 0 .cleared) [] encodedInfo
  match env.generateGas draft (txTargets env.toTxEnv fromAddr toAddr) with
  | none => .error (.ack (-11) "Generate Gas failed!")
  | some gas =>
    let currentTime := env.getUTCTimestamp 0
    let type := getTxStartIdentity env.toTxEnv height currentTime
    let tx ← RpcExit.report (-12)
      (fun _ => tooPoor found.1 (expend + gas)
        ++ s!"gas is {gas.toNat}toAddr amount is {expend.toNat}")
      (fillVouts env.toTxEnv 0 draft toAddr.entries (fromAddr.getLastD []) found.1 expend gas)
    let identity ← chooseRpcIdentity env.toTxEnv type (found.2.map Utxo.hash).flatten currentTime (-13)
      fun _ => "Find packager failed"
    let tx := { tx with
      time := currentTime
      version := env.kCurrentTransactionVersion
      consensus := env.kConsensus
      txType := 1
      identity := identity }
    let cached := addFromAddr pending (fromAddr.getLastD []) ⟨tx.time, usedUtxos found.2⟩
    RpcExit.when (cached.1 != 0) (-14) "utxo is using!"
    .ok (⟨tx, gas, currentTime, height - 1, type⟩, cached.2)

/-! ### `ReplaceCreateStakeTransaction` and `ReplaceCreateInvestTransaction` -/

/-- `ReplaceCreateStakeTransaction`. -/
def replaceCreateStakeTransaction (env : RpcEnv) (fromAddr : Str) (stakeAmount : UInt64)
    (pledgeType : PledgeType) (commissionRate : UInt64) (isFindUtxo : Bool) (encodedInfo : Str) :
    Except RpcExit TxAck := do
  let height ← nextBlockHeight env (-2) "Failed to get the current block height"
  RpcExit.report (-3) (fun ret => s!"Check parameters failed! The error code is {ret - 100}")
    (check env.toTxEnv [fromAddr] height)
  RpcExit.when (!env.isValidAddress fromAddr) (-4) "From address invlaid!"
  RpcExit.when (stakeAmount == 0) (-5) "Stake amount is zero !"
  RpcExit.when (stakeAmount < env.kMinStakeAmt) (-6)
    s!"The pledge amount must be greater than {env.kMinStakeAmt.toNat}"
  RpcExit.when (pledgeType != .node) (-7) "Unknown stake type!"
  RpcExit.when (env.db.getStakeAddressUtxo fromAddr).toOption.isSome (-8)
    "There has been a pledge transaction before !"
  checkInfo encodedInfo (-9)
  let found ← RpcExit.report (-10) (fun ret => s!"FindUtxo failed! The error code is {ret - 200}")
    (findUtxo env.toUtxoEnv [fromAddr] kMaxVinSize isFindUtxo)
  RpcExit.when found.2.isEmpty (-11) "Utxo is empty!"
  RpcExit.when ((txOwners found.2).length != 1) (-12) "Tx owner is invalid!"
  RpcExit.when (!env.commissionInRange commissionRate) (-13) "The commission ratio is not in the range"
  let draft := rpcDraft env.toTxEnv (fillVins (fun _ => 0) found.2 (txOwners found.2) 0 .cleared)
    (env.dump (.stake env.kStakeTypeNet stakeAmount commissionRate)) encodedInfo
  match env.generateGas draft (stakeTargets env.toTxEnv fromAddr) with
  | none => .error (.ack (-14) "The gas charge cannot be 0")
  | some gas =>
    let currentTime := env.getUTCTimestamp 0
    let type := getTxStartIdentity env.toTxEnv height currentTime
    let tx ← RpcExit.report (-15) (fun _ => tooPoor found.1 (stakeAmount + gas))
      (fillVouts env.toTxEnv 0 draft [(env.kVirtualStakeAddr, stakeAmount.toInt64)] fromAddr
        found.1 stakeAmount gas)
    let identity ← chooseRpcIdentity env.toTxEnv type (found.2.map Utxo.hash).flatten currentTime (-16)
      fun ret => s!"Failed to get the packager, error code is {ret}"
    let tx := { tx with
      version := env.kCurrentTransactionVersion
      time := currentTime
      consensus := env.kConsensus
      txType := 2
      identity := identity }
    .ok ⟨tx, gas, currentTime, height - 1, type⟩

/-- `ReplaceCreateInvestTransaction`. -/
def replaceCreateInvestTransaction (env : RpcEnv) (fromAddr toAddr : Str) (investAmount : UInt64)
    (investType : InvestType) (isFindUtxo : Bool) (encodedInfo : Str) : Except RpcExit TxAck := do
  let height ← nextBlockHeight env (-1) "Failed to get the current highest block height"
  RpcExit.report (-2) (fun _ => "Check parameters failed") (check env.toTxEnv [fromAddr] height)
  RpcExit.when (!env.isValidAddress fromAddr) (-3) "The initiator address is incorrect"
  RpcExit.when (!env.isValidAddress toAddr) (-4) "The receiver address is incorrect"
  RpcExit.when (investAmount < 35 * env.kDecimalNum) (-5) "investment amount less 35 "
  checkQualified env (env.checkInvestQualification fromAddr toAddr investAmount) (-100)
  RpcExit.when (investType != .netLicence) (-6) "Unknown invest type"
  checkInfo encodedInfo (-7)
  let found ← RpcExit.report (-8) (fun ret => s!"FindUtxo failed! The error code is {ret - 300}")
    (findUtxo env.toUtxoEnv [fromAddr] kMaxVinSize isFindUtxo)
  RpcExit.when found.2.isEmpty (-9) "Utxo is empty"
  RpcExit.when (txOwners found.2).isEmpty (-10) "Tx owner is empty"
  let draft := rpcDraft env.toTxEnv (fillVins (fun _ => 0) found.2 (txOwners found.2) 0 .cleared)
    (env.dump (.invest env.kInvestTypeNormal toAddr investAmount)) encodedInfo
  match env.generateGas draft (stakeTargets env.toTxEnv fromAddr) with
  | none => .error (.ack (-11) "gas cannot be 0")
  | some gas =>
    let currentTime := env.getUTCTimestamp 0
    let type := getTxStartIdentity env.toTxEnv height currentTime
    let tx ← RpcExit.report (-12) (fun _ => tooPoor found.1 (investAmount + gas))
      (fillVouts env.toTxEnv 0 draft [(env.kVirtualInvestAddr, investAmount.toInt64)] fromAddr
        found.1 investAmount gas)
    let identity ← chooseRpcIdentity env.toTxEnv type (found.2.map Utxo.hash).flatten currentTime (-13)
      fun _ => "GetBlockPackager error"
    let tx := { tx with
      version := env.kCurrentTransactionVersion
      time := currentTime
      consensus := env.kConsensus
      txType := 4
      identity := identity }
    .ok ⟨tx, gas, currentTime, height - 1, type⟩

/-! ### `ReplaceCreatUnstakeTransaction` and `ReplaceCreateDisinvestTransaction` -/

/-- `ReplaceCreatUnstakeTransaction`. -/
def replaceCreatUnstakeTransaction (env : RpcEnv) (fromAddr utxoHash : Str) (isFindUtxo : Bool)
    (encodedInfo : Str) : Except RpcExit TxAck := do
  let height ← nextBlockHeight env (-1) "Failed to get the current highest block height"
  RpcExit.report (-2) (fun ret => s!"-2 Check parameters failed! The error code is {ret - 100}")
    (check env.toTxEnv [fromAddr] height)
  RpcExit.when (!env.isValidAddress fromAddr) (-3) "FromAddr is not normal addr."
  let qualified := env.isQualifiedToUnstake fromAddr utxoHash
  checkQualified env qualified.1 0
  let found ← RpcExit.report (-4) (fun ret => s!"FindUtxo failed! The error code is {ret - 300}")
    (findUtxo env.toUtxoEnv [fromAddr] (kMaxVinSize - 1) isFindUtxo)
  RpcExit.when found.2.isEmpty (-5) "Utxo is empty"
  RpcExit.when (txOwners found.2).isEmpty (-6) "Tx owner is empty"
  checkInfo encodedInfo (-7)
  let txUtxo := fillVins (fun _ => 1) found.2 (txOwners found.2) 1 (redeemVin fromAddr utxoHash)
  let draft := { rpcDraft env.toTxEnv txUtxo (env.dumpRedeem (.unstake utxoHash)) encodedInfo with
    version := env.kCurrentTransactionVersion }
  match env.generateGas draft (stakeTargets env.toTxEnv fromAddr) with
  | none => .error (.ack (-9) "The gas charge cannot be 0")
  | some gas =>
    let currentTime := env.getUTCTimestamp 0
    let type := getTxStartIdentity env.toTxEnv height currentTime
    let tx ← RpcExit.report (-8) (fun _ => tooPoor found.1 gas)
      (fillVouts env.toTxEnv 0 draft [(fromAddr, qualified.2.toInt64)] fromAddr found.1 0 gas)
    let identity ← chooseRpcIdentity env.toTxEnv type (utxoHash ++ (found.2.map Utxo.hash).flatten)
      currentTime (-9) fun ret => s!"GetBlockPackager error , error code is {ret}"
    let tx := { tx with
      time := currentTime
      version := env.kCurrentTransactionVersion
      consensus := env.kConsensus
      txType := 3
      identity := identity }
    .ok ⟨tx, gas, currentTime, height - 1, type⟩

/-- `ReplaceCreateDisinvestTransaction`. -/
def replaceCreateDisinvestTransaction (env : RpcEnv) (fromAddr toAddr utxoHash : Str) (isFindUtxo : Bool)
    (encodedInfo : Str) : Except RpcExit TxAck := do
  let height ← nextBlockHeight env (-1) "Failed to get the current highest block height"
  RpcExit.report (-2) (fun ret => s!"Check parameters failed The error code is {ret - 100}")
    (check env.toTxEnv [fromAddr] height)
  RpcExit.when (!env.isValidAddress fromAddr) (-3) "FromAddr is not normal addr."
  RpcExit.when (!env.isValidAddress toAddr) (-4) "To address is not normal addr."
  let qualified := env.isQualifiedToDisinvest fromAddr toAddr utxoHash
  checkQualified env qualified.1 (-100)
  checkInfo encodedInfo (-5)
  let found ← RpcExit.report (-6) (fun ret => s!"FindUtxo failed The error code is {ret - 300}")
    (findUtxo env.toUtxoEnv [fromAddr] (kMaxVinSize - 1) isFindUtxo)
  RpcExit.when found.2.isEmpty (-7) "Utxo is empty"
  RpcExit.when (txOwners found.2).isEmpty (-8) "Tx owner is empty"
  let txUtxo := fillVins (fun _ => 1) found.2 (txOwners found.2) 1 (redeemVin fromAddr utxoHash)
  let draft := rpcDraft env.toTxEnv txUtxo (env.dumpRedeem (.disinvest toAddr utxoHash)) encodedInfo
  match env.generateGas draft (stakeTargets env.toTxEnv fromAddr) with
  | none => .error (.ack (-9) "gas cannot be 0")
  | some gas =>
    let currentTime := env.getUTCTimestamp 0
    let type := getTxStartIdentity env.toTxEnv height currentTime
    let tx ← RpcExit.report (-10) (fun _ => tooPoor found.1 gas)
      (fillVouts env.toTxEnv 0 draft [(fromAddr, qualified.2.toInt64)] fromAddr found.1 0 gas)
    let identity ← chooseRpcIdentity env.toTxEnv type (utxoHash ++ (found.2.map Utxo.hash).flatten)
      currentTime (-11) fun _ => "GetBlockPackager error"
    let tx := { tx with
      time := currentTime
      version := env.kCurrentTransactionVersion
      consensus := env.kConsensus
      txType := 5
      identity := identity }
    .ok ⟨tx, gas, currentTime, height - 1, type⟩

/-! ### `ReplaceCreateBonusTransaction` -/

/-- `ReplaceCreateBonusTransaction`. The others add one to the block top, this one does not. -/
def replaceCreateBonusTransaction (env : RpcEnv) (addr : Str) (isFindUtxo : Bool) (encodedInfo : Str) :
    Except RpcExit TxAck := do
  let height ← blockTopHeight env (-1) "Failed to get the current highest block height"
  RpcExit.report (-2) (fun ret => s!"Check parameters failed{ret}") (check env.toTxEnv [addr] height)
  RpcExit.when (!env.isValidAddress addr) (-3) "The bouns address is incorrect"
  checkInfo encodedInfo (-4)
  let curTime := env.getUTCTimestamp 0
  checkQualified env (env.checkBonusQualification addr curTime) (-100)
  let bonus := env.calcBonusValue curTime addr
  RpcExit.when (bonus.1 < 0) (-5)
    s!"Failed to obtain the amount claimed by the investor, ret{bonus.1}"
  let found ← RpcExit.report (-6) (fun ret => s!"FindUtxo failed{ret}")
    (findUtxo env.toUtxoEnv [addr] (kMaxVinSize - 1) isFindUtxo)
  RpcExit.when found.2.isEmpty (-7) "utxo is zero"
  RpcExit.when (txOwners found.2).isEmpty (-8) "Tx owner is empty"
  match env.getCommissionPercentage addr with
  | .error rt => .error (.ack (-9) s!"GetCommissionPercentage error{rt}")
  | .ok tempcommissionRate =>
    let shares := bonusShares env.toBuilderEnv bonus.2 tempcommissionRate
    let totalClaim := shares.totalClaim + shares.nodeDividend
    let draft := rpcDraft env.toTxEnv (fillVins (fun _ => 0) found.2 (txOwners found.2) 0 .cleared)
      (env.dumpRedeem (.bonus totalClaim (bonus.2.entries.length + 2))) encodedInfo
    match env.generateGas draft (bonusTargets env.toTxEnv bonus.2) with
    | none => .error (.ack (-10) "The gas charge cannot be 0")
    | some gas =>
      let currentTime := env.getUTCTimestamp 1
      let type := getTxStartIdentity env.toTxEnv height currentTime
      let tx ← RpcExit.report (-11)
        (fun _ => s!"The total cost = \x7b\x7d is less than the cost = \x7b\x7d{found.1.toNat}")
        (fillBonusVouts env.toTxEnv 0 draft shares addr found.1 gas)
      let tx := { tx with
        time := currentTime
        version := env.kCurrentTransactionVersion
        consensus := env.kConsensus
        txType := 99 }
      RpcExit.when (totalClaim == 0) (-12) "The claim amount is 0"
      let identity ← chooseRpcIdentity env.toTxEnv type (found.2.map Utxo.hash).flatten currentTime (-13)
        fun ret => s!"GetBlockPackager fail{ret}"
      .ok ⟨{ tx with identity := identity }, gas, currentTime, height - 1, type⟩

/-! ### The steps of a builder that succeeds -/

@[simp] theorem RpcExit.report_eq_ok {α : Type} {code : ℤ} {message : ℤ → String} {m : Except Exit α}
    {a : α} : RpcExit.report code message m = .ok a ↔ m = .ok a := by
  rcases m with (code | _) | b <;> simp [RpcExit.report]

@[simp] theorem RpcExit.when_eq_ok {cond : Bool} {code : ℤ} {message : String} {u : Unit} :
    RpcExit.when cond code message = .ok u ↔ cond = false := by
  cases cond with
  | true => constructor <;> intro h <;> cases h
  | false => exact ⟨fun _ => rfl, fun _ => rfl⟩

/-- The transaction with its last fields filled in; the hash is set by the caller. -/
def stampRpcTx (env : TxEnv) (tx : CTransaction) (time : UInt64) (txType : UInt32) (identity : Str) :
    CTransaction :=
  { tx with
    version := env.kCurrentTransactionVersion
    time := time
    consensus := env.kConsensus
    txType := txType
    identity := identity }

section Inversion
variable {env : RpcEnv} {encodedInfo : Str} {isFindUtxo : Bool}

theorem replaceCreateTxTransaction_inv {fromAddr : List Str} {toAddr : Recipients}
    {pending : StdMap Str DoubleSpendsuc} {r : TxAck × StdMap Str DoubleSpendsuc}
    (h : replaceCreateTxTransaction env fromAddr toAddr isFindUtxo encodedInfo pending = .ok r) :
    ∃ found gas tx identity,
      findUtxo env.toUtxoEnv fromAddr kMaxVinSize isFindUtxo = .ok found ∧
      env.generateGas (rpcDraft env.toTxEnv (fillVins (· + 1) found.2 (txOwners found.2) 0 .cleared) []
        encodedInfo) (txTargets env.toTxEnv fromAddr toAddr) = some gas ∧
      fillVouts env.toTxEnv 0 (rpcDraft env.toTxEnv
        (fillVins (· + 1) found.2 (txOwners found.2) 0 .cleared) [] encodedInfo) toAddr.entries
        (fromAddr.getLastD []) found.1 (toAddr.entries.foldl (fun amount i => amount + i.2.toUInt64) 0) gas
          = .ok tx ∧
      r.1.tx = stampRpcTx env.toTxEnv tx (env.getUTCTimestamp 0) 1 identity ∧
      addFromAddr pending (fromAddr.getLastD []) ⟨r.1.tx.time, usedUtxos found.2⟩ = (0, r.2) := by
  -- the height and the four checks of the arguments
  iterate 5 obtain ⟨_, -, h⟩ := bind_eq_ok.mp h
  obtain ⟨found, hfound, h⟩ := bind_eq_ok.mp h
  iterate 2 obtain ⟨_, -, h⟩ := bind_eq_ok.mp h
  dsimp only at h
  split at h
  · cases h
  rename_i gas hgas
  obtain ⟨tx, hfill, h⟩ := bind_eq_ok.mp h
  obtain ⟨identity, -, h⟩ := bind_eq_ok.mp h
  obtain ⟨_, hcached, h⟩ := bind_eq_ok.mp h
  obtain rfl := Except.ok.inj h
  refine ⟨found, gas, tx, identity, RpcExit.report_eq_ok.mp hfound, hgas, RpcExit.report_eq_ok.mp hfill,
    rfl, ?_⟩
  have hzero := RpcExit.when_eq_ok.mp hcached
  exact Prod.ext (by simpa using hzero) rfl

theorem replaceCreateStakeTransaction_inv {fromAddr : Str} {stakeAmount : UInt64} {pledgeType : PledgeType}
    {commissionRate : UInt64} {ack : TxAck}
    (h : replaceCreateStakeTransaction env fromAddr stakeAmount pledgeType commissionRate isFindUtxo
      encodedInfo = .ok ack) :
    ∃ found gas tx identity,
      findUtxo env.toUtxoEnv [fromAddr] kMaxVinSize isFindUtxo = .ok found ∧
      env.generateGas (rpcDraft env.toTxEnv (fillVins (fun _ => 0) found.2 (txOwners found.2) 0 .cleared)
        (env.dump (.stake env.kStakeTypeNet stakeAmount commissionRate)) encodedInfo)
        (stakeTargets env.toTxEnv fromAddr) = some gas ∧
      fillVouts env.toTxEnv 0 (rpcDraft env.toTxEnv
        (fillVins (fun _ => 0) found.2 (txOwners found.2) 0 .cleared)
        (env.dump (.stake env.kStakeTypeNet stakeAmount commissionRate)) encodedInfo)
        [(env.kVirtualStakeAddr, stakeAmount.toInt64)] fromAddr found.1 stakeAmount gas = .ok tx ∧
      ack.tx = stampRpcTx env.toTxEnv tx (env.getUTCTimestamp 0) 2 identity := by
  -- the height and the seven checks of the arguments
  iterate 8 obtain ⟨_, -, h⟩ := bind_eq_ok.mp h
  obtain ⟨found, hfound, h⟩ := bind_eq_ok.mp h
  iterate 3 obtain ⟨_, -, h⟩ := bind_eq_ok.mp h
  dsimp only at h
  split at h
  · cases h
  rename_i gas hgas
  obtain ⟨tx, hfill, h⟩ := bind_eq_ok.mp h
  obtain ⟨identity, -, h⟩ := bind_eq_ok.mp h
  obtain rfl := Except.ok.inj h
  exact ⟨found, gas, tx, identity, RpcExit.report_eq_ok.mp hfound, hgas, RpcExit.report_eq_ok.mp hfill, rfl⟩

theorem replaceCreateInvestTransaction_inv {fromAddr toAddr : Str} {investAmount : UInt64}
    {investType : InvestType} {ack : TxAck}
    (h : replaceCreateInvestTransaction env fromAddr toAddr investAmount investType isFindUtxo encodedInfo
      = .ok ack) :
    ∃ found gas tx identity,
      findUtxo env.toUtxoEnv [fromAddr] kMaxVinSize isFindUtxo = .ok found ∧
      env.generateGas (rpcDraft env.toTxEnv (fillVins (fun _ => 0) found.2 (txOwners found.2) 0 .cleared)
        (env.dump (.invest env.kInvestTypeNormal toAddr investAmount)) encodedInfo)
        (stakeTargets env.toTxEnv fromAddr) = some gas ∧
      fillVouts env.toTxEnv 0 (rpcDraft env.toTxEnv
        (fillVins (fun _ => 0) found.2 (txOwners found.2) 0 .cleared)
        (env.dump (.invest env.kInvestTypeNormal toAddr investAmount)) encodedInfo)
        [(env.kVirtualInvestAddr, investAmount.toInt64)] fromAddr found.1 investAmount gas = .ok tx ∧
      ack.tx = stampRpcTx env.toTxEnv tx (env.getUTCTimestamp 0) 4 identity := by
  -- the height and the seven checks of the arguments
  iterate 8 obtain ⟨_, -, h⟩ := bind_eq_ok.mp h
  obtain ⟨found, hfound, h⟩ := bind_eq_ok.mp h
  iterate 2 obtain ⟨_, -, h⟩ := bind_eq_ok.mp h
  dsimp only at h
  split at h
  · cases h
  rename_i gas hgas
  obtain ⟨tx, hfill, h⟩ := bind_eq_ok.mp h
  obtain ⟨identity, -, h⟩ := bind_eq_ok.mp h
  obtain rfl := Except.ok.inj h
  exact ⟨found, gas, tx, identity, RpcExit.report_eq_ok.mp hfound, hgas, RpcExit.report_eq_ok.mp hfill, rfl⟩

theorem replaceCreatUnstakeTransaction_inv {fromAddr utxoHash : Str} {ack : TxAck}
    (h : replaceCreatUnstakeTransaction env fromAddr utxoHash isFindUtxo encodedInfo = .ok ack) :
    ∃ found gas tx identity,
      findUtxo env.toUtxoEnv [fromAddr] (kMaxVinSize - 1) isFindUtxo = .ok found ∧
      env.generateGas { rpcDraft env.toTxEnv
        (fillVins (fun _ => 1) found.2 (txOwners found.2) 1 (redeemVin fromAddr utxoHash))
        (env.dumpRedeem (.unstake utxoHash)) encodedInfo with version := env.kCurrentTransactionVersion }
        (stakeTargets env.toTxEnv fromAddr) = some gas ∧
      fillVouts env.toTxEnv 0 { rpcDraft env.toTxEnv
        (fillVins (fun _ => 1) found.2 (txOwners found.2) 1 (redeemVin fromAddr utxoHash))
        (env.dumpRedeem (.unstake utxoHash)) encodedInfo with version := env.kCurrentTransactionVersion }
        [(fromAddr, (env.isQualifiedToUnstake fromAddr utxoHash).2.toInt64)] fromAddr found.1 0 gas
          = .ok tx ∧
      ack.tx = stampRpcTx env.toTxEnv tx (env.getUTCTimestamp 0) 3 identity := by
  -- the height and the three checks of the arguments
  iterate 4 obtain ⟨_, -, h⟩ := bind_eq_ok.mp h
  obtain ⟨found, hfound, h⟩ := bind_eq_ok.mp h
  iterate 3 obtain ⟨_, -, h⟩ := bind_eq_ok.mp h
  dsimp only at h
  split at h
  · cases h
  rename_i gas hgas
  obtain ⟨tx, hfill, h⟩ := bind_eq_ok.mp h
  obtain ⟨identity, -, h⟩ := bind_eq_ok.mp h
  obtain rfl := Except.ok.inj h
  exact ⟨found, gas, tx, identity, RpcExit.report_eq_ok.mp hfound, hgas, RpcExit.report_eq_ok.mp hfill, rfl⟩

theorem replaceCreateDisinvestTransaction_inv {fromAddr toAddr utxoHash : Str} {ack : TxAck}
    (h : replaceCreateDisinvestTransaction env fromAddr toAddr utxoHash isFindUtxo encodedInfo = .ok ack) :
    ∃ found gas tx identity,
      findUtxo env.toUtxoEnv [fromAddr] (kMaxVinSize - 1) isFindUtxo = .ok found ∧
      env.generateGas (rpcDraft env.toTxEnv
        (fillVins (fun _ => 1) found.2 (txOwners found.2) 1 (redeemVin fromAddr utxoHash))
        (env.dumpRedeem (.disinvest toAddr utxoHash)) encodedInfo) (stakeTargets env.toTxEnv fromAddr)
          = some gas ∧
      fillVouts env.toTxEnv 0 (rpcDraft env.toTxEnv
        (fillVins (fun _ => 1) found.2 (txOwners found.2) 1 (redeemVin fromAddr utxoHash))
        (env.dumpRedeem (.disinvest toAddr utxoHash)) encodedInfo)
        [(fromAddr, (env.isQualifiedToDisinvest fromAddr toAddr utxoHash).2.toInt64)] fromAddr found.1 0
          gas = .ok tx ∧
      ack.tx = stampRpcTx env.toTxEnv tx (env.getUTCTimestamp 0) 5 identity := by
  -- the height and the five checks of the arguments
  iterate 6 obtain ⟨_, -, h⟩ := bind_eq_ok.mp h
  obtain ⟨found, hfound, h⟩ := bind_eq_ok.mp h
  iterate 2 obtain ⟨_, -, h⟩ := bind_eq_ok.mp h
  dsimp only at h
  split at h
  · cases h
  rename_i gas hgas
  obtain ⟨tx, hfill, h⟩ := bind_eq_ok.mp h
  obtain ⟨identity, -, h⟩ := bind_eq_ok.mp h
  obtain rfl := Except.ok.inj h
  exact ⟨found, gas, tx, identity, RpcExit.report_eq_ok.mp hfound, hgas, RpcExit.report_eq_ok.mp hfill, rfl⟩

theorem replaceCreateBonusTransaction_inv {addr : Str} {ack : TxAck}
    (h : replaceCreateBonusTransaction env addr isFindUtxo encodedInfo = .ok ack) :
    ∃ found rate gas tx identity,
      findUtxo env.toUtxoEnv [addr] (kMaxVinSize - 1) isFindUtxo = .ok found ∧
      env.getCommissionPercentage addr = .ok rate ∧
      env.generateGas (bonusDraft env.toBuilderEnv
        (fillVins (fun _ => 0) found.2 (txOwners found.2) 0 .cleared)
        (env.calcBonusValue (env.getUTCTimestamp 0) addr).2 rate encodedInfo)
        (bonusTargets env.toTxEnv (env.calcBonusValue (env.getUTCTimestamp 0) addr).2) = some gas ∧
      fillBonusVouts env.toTxEnv 0 (bonusDraft env.toBuilderEnv
        (fillVins (fun _ => 0) found.2 (txOwners found.2) 0 .cleared)
        (env.calcBonusValue (env.getUTCTimestamp 0) addr).2 rate encodedInfo)
        (bonusShares env.toBuilderEnv (env.calcBonusValue (env.getUTCTimestamp 0) addr).2 rate) addr
          found.1 gas = .ok tx ∧
      ack.tx = stampRpcTx env.toTxEnv tx (env.getUTCTimestamp 1) 99 identity := by
  -- the height and the five checks of the arguments
  iterate 6 obtain ⟨_, -, h⟩ := bind_eq_ok.mp h
  obtain ⟨found, hfound, h⟩ := bind_eq_ok.mp h
  iterate 2 obtain ⟨_, -, h⟩ := bind_eq_ok.mp h
  dsimp only at h
  split at h
  · cases h
  rename_i rate hrate
  split at h
  · cases h
  rename_i gas hgas
  obtain ⟨tx, hfill, h⟩ := bind_eq_ok.mp h
  obtain ⟨_, -, h⟩ := bind_eq_ok.mp h
  obtain ⟨identity, -, h⟩ := bind_eq_ok.mp h
  obtain rfl := Except.ok.inj h
  exact ⟨found, rate, gas, tx, identity, RpcExit.report_eq_ok.mp hfound, hrate, hgas,
    RpcExit.report_eq_ok.mp hfill, rfl⟩

end Inversion

end Tfs.Api
