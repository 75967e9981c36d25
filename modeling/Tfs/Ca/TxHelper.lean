import Tfs.Ca.Utxo

/-! The transaction builders of a node (`TxHelper::CreateTxTransaction`, `CreateStakeTransaction`,
    `CreateInvestTransaction`).

    Each builder checks its arguments, selects outputs of the sender, signs one input per owner, asks
    for the gas, and writes the payments, the change and the gas as outputs; then it signs the whole
    and names the packager. Expenditure, total and change are unsigned 64-bit words and the output
    fields are signed. The theorem says exactly when what a builder returns conserves value. -/

namespace Tfs.Ca
open Tfs.Db

/-- `TxHelper::vrfAgentType`. -/
inductive VrfAgentType where
  | defalut
  | vrf
  | local
  deriving DecidableEq, Repr

/-- `TxHelper::pledgeType`. -/
inductive PledgeType where
  | unknown
  | node
  deriving DecidableEq, Repr

/-- `TxHelper::InvestType`. -/
inductive InvestType where
  | unknown
  | netLicence
  deriving DecidableEq, Repr

/-- The `TxInfo` object that is dumped into `data`; a rate is carried by the bits of its double. -/
inductive TxInfo where
  | stake (stakeType : Str) (stakeAmount : UInt64) (commissionRate : UInt64)
  | invest (investType bonusAddr : Str) (investAmount : UInt64)
  deriving DecidableEq, Repr

/-- The constants of `global::ca` that the builders use. -/
structure Globals where
  kDecimalNum : UInt64
  kTxSign : Str
  kStakeTypeNet : Str
  kInvestTypeNormal : Str
  kVirtualStakeAddr : Str
  kVirtualInvestAddr : Str
  kVirtualBurnGasAddr : Str
  kConsensus : UInt32
  kCurrentTransactionVersion : UInt32

/-- What the builders use besides their arguments. `none` and non-zero codes are failures; readings
    of the clock and answers of the packager selection are numbered in the order they are taken. -/
structure TxEnv extends UtxoEnv, Globals where
  isValidAddress : Str → Bool
  getsha256hash : Str → Str
  serializeVin : CTxInput → Str
  serializeUtxo : CTxUtxo → Str
  serializeTx : CTransaction → Str
  dump : TxInfo → Str
  sign : Str → Str → Option CSign
  generateGas : CTransaction → ℕ → Option UInt64
  getUTCTimestamp : ℕ → UInt64
  checkTxTimeOut : UInt64 → UInt64 → Bool
  getIdentityNodes : Str
  getEligibleNodes : Str
  getBlockPackager : ℕ → Str → ℤ × Str
  checkInvestQualification : Str → Str → UInt64 → ℤ

/-! ### Shared steps -/

/-- The loop of `TxHelper::Check` over the senders. -/
def checkSenders (env : TxEnv) : List Str → Except Exit Unit
  | [] => .ok ()
  | addr :: rest => do
    Exit.when (!env.isValidAddress addr) (-3)
    Exit.when (env.db.getUtxoHashsByAddress addr).toOption.isNone (-4)
    checkSenders env rest

/-- `TxHelper::Check`. -/
def check (env : TxEnv) (fromAddr : List Str) (height : UInt64) : Except Exit Unit := do
  Exit.when fromAddr.isEmpty (-1)
  Exit.when ((sortedSet fromAddr).length != fromAddr.length) (-2)
  checkSenders env fromAddr
  Exit.when (height == 0) (-5)

/-- One signed input per owner, numbered from `n` by `next`; a failed signature returns `code`. -/
def signVins (env : TxEnv) (code : ℤ) (next : UInt32 → UInt32) (utxos : List Utxo) :
    List Str → UInt32 → CTxUtxo → Except Exit CTxUtxo
  | [], _, txUtxo => .ok txUtxo
  | owner :: rest, n, txUtxo =>
    let vin : CTxInput := ⟨prevOutsOf utxos owner, none, n, []⟩
    match env.sign owner (env.getsha256hash (env.serializeVin vin)) with
    | none => .error (.ret code)
    | some vinSign =>
      signVins env code next utxos rest (next n)
        { txUtxo with
          owner := txUtxo.owner ++ [owner]
          vin := txUtxo.vin ++ [{ vin with vinSign := some vinSign }] }

/-- The transaction as `GenerateGas` sees it: cleared, with its inputs, `data`, `info` and `type`. -/
def draftTx (env : TxEnv) (code : ℤ) (next : UInt32 → UInt32) (utxos : List Utxo)
    (data encodedInfo : Str) : Except Exit CTransaction := do
  let txUtxo ← signVins env code next utxos (txOwners utxos) 0 .cleared
  .ok { CTransaction.cleared with
    utxo := txUtxo, data := data, info := encodedInfo, type := env.kTxSign }

/-- Judge whether the outputs suffice and fill the vouts: the payments, the change, the gas. -/
def fillVouts (env : TxEnv) (code : ℤ) (draft : CTransaction) (payments : List (Str × Int64))
    (changeAddr : Str) (total expend gas : UInt64) : Except Exit CTransaction := do
  let expend := expend + gas
  Exit.when (total < expend) code
  let txUtxo := payments.foldl (fun u pay => u.addVout pay.1 pay.2) draft.utxo
  let txUtxo := txUtxo.addVout changeAddr (total - expend).toInt64
  .ok { draft with utxo := txUtxo.addVout env.kVirtualBurnGasAddr gas.toInt64 }

/-- `TxHelper::AddMutilSign`. -/
def addMutilSign (env : TxEnv) (addr : Str) (tx : CTransaction) : Option CTransaction :=
  if env.isValidAddress addr then
    let copyTxUtxo := { tx.utxo with multiSign := [] }
    (env.sign addr (env.getsha256hash (env.serializeUtxo copyTxUtxo))).map fun s =>
      { tx with utxo := { tx.utxo with multiSign := tx.utxo.multiSign ++ [s] } }
  else none

/-- `AddMutilSign` for every owner; a failure returns `code`. -/
def addMutilSigns (env : TxEnv) (code : ℤ) : List Str → CTransaction → Except Exit CTransaction
  | [], tx => .ok tx
  | owner :: rest, tx =>
    match addMutilSign env owner tx with
    | none => .error (.ret code)
    | some tx' => addMutilSigns env code rest tx'

/-- `TxHelper::GetTxStartIdentity`. -/
def getTxStartIdentity (env : TxEnv) (height currentTime : UInt64) : VrfAgentType :=
  if env.checkTxTimeOut currentTime (height - 1) then .defalut else .vrf

/-- The identity of a transaction that the node packs itself. -/
def ownIdentity (env : TxEnv) : Str :=
  if env.getIdentityNodes = [] then env.getEligibleNodes else env.getIdentityNodes

/-- `std::to_string` of the time. -/
def timeToString (time : UInt64) : Str := str (toString time.toNat)

/-- The packager of a stake or invest transaction: one try. -/
def chooseIdentity (env : TxEnv) (type : VrfAgentType) (utxos : List Utxo) (currentTime : UInt64) :
    Except Exit Str :=
  if type = .defalut ∨ type = .local then .ok (ownIdentity env)
  else
    let answer := env.getBlockPackager 0 ((utxos.map Utxo.hash).flatten ++ timeToString currentTime)
    if answer.1 ≠ 0 then .error (.ret answer.1) else .ok answer.2

/-! ### `CreateTxTransaction` -/

/-- The recipients: `std::map<std::string, int64_t>`, in key order. -/
structure Recipients where
  entries : List (Str × Int64)
  sorted : (entries.map Prod.fst).Pairwise (· < ·)

/-- The checks of the recipients: valid, not a sender, a positive amount. -/
def checkRecipients (env : TxEnv) (fromAddr : List Str) : List (Str × Int64) → Except Exit Unit
  | [] => .ok ()
  | addr :: rest => do
    Exit.when (!env.isValidAddress addr.1) (-2)
    Exit.when (fromAddr.contains addr.1) (-3)
    Exit.when (addr.2 ≤ 0) (-4)
    checkRecipients env fromAddr rest

/-- The packager of an ordinary transaction: `left` more tries, the first of them number `k`. A try
    answered by `-6` is repeated at a new time; the answer of the last try is not used. -/
def tryPackagers (env : TxEnv) (allUtxos : Str) : ℕ → ℕ → UInt64 → Except Exit (UInt64 × Str)
  | 0, _, _ => .error (.ret (-12))
  | left + 1, k, currentTime =>
    let answer := env.getBlockPackager k (allUtxos ++ timeToString currentTime)
    if answer.1 = -6 then tryPackagers env allUtxos left (k + 1) (env.getUTCTimestamp (k + 1))
    else if answer.1 ≠ 0 then .error (.ret answer.1)
    else if left = 0 then .error (.ret (-12))
    else .ok (currentTime, answer.2)

/-- Time and identity of an ordinary transaction. -/
def chooseTxIdentity (env : TxEnv) (type : VrfAgentType) (utxos : List Utxo)
    (currentTime : UInt64) : Except Exit (UInt64 × Str) :=
  if type = .defalut ∨ type = .local then .ok (currentTime, ownIdentity env)
  else tryPackagers env (utxos.map Utxo.hash).flatten 6 0 currentTime

/-- `DoubleSpendCache::doubleSpendsuc`. -/
structure DoubleSpendsuc where
  time : UInt64
  utxoVec : List Str

/-- `DoubleSpendCache::AddFromAddr`: the return code and the pending entries. An address that is
    pending keeps its old entry. -/
def addFromAddr (pending : StdMap Str DoubleSpendsuc) (addr : Str) (used : DoubleSpendsuc) :
    ℤ × StdMap Str DoubleSpendsuc :=
  match pending addr with
  | some old => if used.utxoVec.any fun u => old.utxoVec.contains u then (-1, pending) else (0, pending)
  | none => (0, pending.set addr used)

/-- The hashes in the order in which the inputs list them. -/
def usedUtxos (utxos : List Utxo) : List Str :=
  (txOwners utxos).flatMap fun owner => (prevOutsOf utxos owner).map CTxPrevOutput.hash

/-- The number of addresses `GenerateGas` counts for an ordinary transaction. -/
def txTargets (env : TxEnv) (fromAddr : List Str) (toAddr : Recipients) : ℕ :=
  (sortedSet (toAddr.entries.map Prod.fst
    ++ [fromAddr.getLastD [], env.kVirtualBurnGasAddr])).length

/-- `TxHelper::CreateTxTransaction`: the transaction, the agent type and the pending entries. -/
def createTxTransaction (env : TxEnv) (fromAddr : List Str) (toAddr : Recipients)
    (encodedInfo : Str) (height : UInt64) (isFindUtxo : Bool)
    (pending : StdMap Str DoubleSpendsuc) :
    Except Exit (CTransaction × VrfAgentType × StdMap Str DoubleSpendsuc) := do
  Exit.recode (· - 100) (check env fromAddr height)
  Exit.when toAddr.entries.isEmpty (-1)
  checkRecipients env fromAddr toAddr.entries
  let expend := toAddr.entries.foldl (fun amount i => amount + i.2.toUInt64) 0
  let found ← Exit.recode (· - 200) (findUtxo env.toUtxoEnv fromAddr kMaxVinSize isFindUtxo)
  Exit.when found.2.isEmpty (-5)
  Exit.when (txOwners found.2).isEmpty (-6)
  let draft ← draftTx env (-8) (· + 1) found.2 [] encodedInfo
  match env.generateGas draft (txTargets env fromAddr toAddr) with
  | none => .error (.ret (-9))
  | some gas =>
    let currentTime := env.getUTCTimestamp 0
    let type := getTxStartIdentity env height currentTime
    let tx ← fillVouts env (-10) draft toAddr.entries (fromAddr.getLastD []) found.1 expend gas
    let tx ← addMutilSigns env (-11) (txOwners found.2) tx
    let chosen ← chooseTxIdentity env type found.2 currentTime
    let tx := { tx with
      time := chosen.1
      version := env.kCurrentTransactionVersion
      consensus := env.kConsensus
      txType := 1
      identity := chosen.2 }
    let tx := { tx with hash := env.getsha256hash (env.serializeTx tx) }
    let cached := addFromAddr pending (fromAddr.headD []) ⟨tx.time, usedUtxos found.2⟩
    Exit.when (cached.1 != 0) (-7)
    .ok (tx, type, cached.2)

/-! ### `CreateStakeTransaction` and `CreateInvestTransaction` -/

/-- The number of addresses `GenerateGas` counts for a stake or invest transaction; the source names
    the stake address in both. -/
def stakeTargets (env : TxEnv) (fromAddr : Str) : ℕ :=
  (sortedSet [env.kVirtualStakeAddr, fromAddr, env.kVirtualBurnGasAddr]).length

/-- `TxHelper::CreateStakeTransaction`. -/
def createStakeTransaction (env : TxEnv) (fromAddr : Str) (stakeAmount : UInt64)
    (encodedInfo : Str) (height : UInt64) (pledgeType : PledgeType) (commissionRate : UInt64)
    (isFindUtxo : Bool) : Except Exit (CTransaction × VrfAgentType) := do
  Exit.recode (· - 100) (check env [fromAddr] height)
  Exit.when (!env.isValidAddress fromAddr) (-1)
  Exit.when (stakeAmount == 0) (-2)
  Exit.when (stakeAmount < 1000 * env.kDecimalNum) (-3)
  Exit.when (pledgeType != .node) (-4)
  Exit.when (match env.db.getStakeAddressUtxo fromAddr with
    | .error .notFound => false
    | _ => true) (-5)
  let found ← Exit.recode (· - 200) (findUtxo env.toUtxoEnv [fromAddr] kMaxVinSize isFindUtxo)
  Exit.when found.2.isEmpty (-6)
  Exit.when ((txOwners found.2).length != 1) (-7)
  let draft ← draftTx env (-8) (fun _ => 0) found.2
    (env.dump (.stake env.kStakeTypeNet stakeAmount commissionRate)) encodedInfo
  match env.generateGas draft (stakeTargets env fromAddr) with
  | none => .error (.ret (-9))
  | some gas =>
    let currentTime := env.getUTCTimestamp 0
    let type := getTxStartIdentity env height currentTime
    let tx ← fillVouts env (-10) draft [(env.kVirtualStakeAddr, stakeAmount.toInt64)] fromAddr
      found.1 stakeAmount gas
    let tx ← addMutilSigns env (-11) (txOwners found.2) tx
    let identity ← chooseIdentity env type found.2 currentTime
    let tx := { tx with
      version := env.kCurrentTransactionVersion
      time := currentTime
      consensus := env.kConsensus
      txType := 2
      identity := identity }
    .ok ({ tx with hash := env.getsha256hash (env.serializeTx tx) }, type)

/-- `TxHelper::CreateInvestTransaction`. -/
def createInvestTransaction (env : TxEnv) (fromAddr toAddr : Str) (investAmount : UInt64)
    (encodedInfo : Str) (height : UInt64) (investType : InvestType) (isFindUtxo : Bool) :
    Except Exit (CTransaction × VrfAgentType) := do
  Exit.recode (· - 100) (check env [fromAddr] height)
  Exit.when (!env.isValidAddress fromAddr) (-1)
  Exit.when (!env.isValidAddress toAddr) (-2)
  Exit.when (investAmount < 35 * env.kDecimalNum) (-3)
  let qualified := env.checkInvestQualification fromAddr toAddr investAmount
  Exit.when (qualified != 0) (qualified - 200)
  Exit.when (investType != .netLicence) (-4)
  let found ← Exit.recode (· - 300) (findUtxo env.toUtxoEnv [fromAddr] kMaxVinSize isFindUtxo)
  Exit.when found.2.isEmpty (-5)
  Exit.when (txOwners found.2).isEmpty (-6)
  let draft ← draftTx env (-7) (fun _ => 0) found.2
    (env.dump (.invest env.kInvestTypeNormal toAddr investAmount)) encodedInfo
  match env.generateGas draft (stakeTargets env fromAddr) with
  | none => .error (.ret (-8))
  | some gas =>
    let currentTime := env.getUTCTimestamp 0
    let type := getTxStartIdentity env height currentTime
    let tx ← fillVouts env (-9) draft [(env.kVirtualInvestAddr, investAmount.toInt64)] fromAddr
      found.1 investAmount gas
    let tx ← addMutilSigns env (-10) (txOwners found.2) tx
    let identity ← chooseIdentity env type found.2 currentTime
    let tx := { tx with
      version := env.kCurrentTransactionVersion
      time := currentTime
      consensus := env.kConsensus
      txType := 4
      identity := identity }
    .ok ({ tx with hash := env.getsha256hash (env.serializeTx tx) }, type)

/-! ### The steps of a builder that succeeds -/

/-- The transaction with its last fields filled in, and its hash. -/
def stampTx (env : TxEnv) (tx : CTransaction) (time : UInt64) (txType : UInt32) (identity : Str) :
    CTransaction :=
  let tx := { tx with
    version := env.kCurrentTransactionVersion
    time := time
    consensus := env.kConsensus
    txType := txType
    identity := identity }
  { tx with hash := env.getsha256hash (env.serializeTx tx) }

theorem createTxTransaction_inv {env : TxEnv} {fromAddr : List Str} {toAddr : Recipients}
    {encodedInfo : Str} {height : UInt64} {isFindUtxo : Bool} {pending : StdMap Str DoubleSpendsuc}
    {r : CTransaction × VrfAgentType × StdMap Str DoubleSpendsuc}
    (h : createTxTransaction env fromAddr toAddr encodedInfo height isFindUtxo pending = .ok r) :
    ∃ found draft gas tx signed chosen,
      findUtxo env.toUtxoEnv fromAddr kMaxVinSize isFindUtxo = .ok found ∧
      draftTx env (-8) (· + 1) found.2 [] encodedInfo = .ok draft ∧
      env.generateGas draft (txTargets env fromAddr toAddr) = some gas ∧
      fillVouts env (-10) draft toAddr.entries (fromAddr.getLastD []) found.1
        (toAddr.entries.foldl (fun amount i => amount + i.2.toUInt64) 0) gas = .ok tx ∧
      addMutilSigns env (-11) (txOwners found.2) tx = .ok signed ∧
      chooseTxIdentity env r.2.1 found.2 (env.getUTCTimestamp 0) = .ok chosen ∧
      r.2.1 = getTxStartIdentity env height (env.getUTCTimestamp 0) ∧
      r.1 = stampTx env signed chosen.1 1 chosen.2 ∧
      addFromAddr pending (fromAddr.headD []) ⟨r.1.time, usedUtxos found.2⟩ = (0, r.2.2) := by
  -- the three checks of the arguments
  iterate 3 obtain ⟨_, -, h⟩ := bind_eq_ok.mp h
  obtain ⟨found, hfound, h⟩ := bind_eq_ok.mp h
  iterate 2 obtain ⟨_, -, h⟩ := bind_eq_ok.mp h
  obtain ⟨draft, hdraft, h⟩ := bind_eq_ok.mp h
  split at h
  · cases h
  rename_i gas hgas
  obtain ⟨tx, hfill, h⟩ := bind_eq_ok.mp h
  obtain ⟨signed, hsign, h⟩ := bind_eq_ok.mp h
  obtain ⟨chosen, hchosen, h⟩ := bind_eq_ok.mp h
  obtain ⟨_, hcached, h⟩ := bind_eq_ok.mp h
  obtain rfl := Except.ok.inj h
  refine ⟨found, draft, gas, tx, signed, chosen, Exit.recode_eq_ok.mp hfound, hdraft, hgas, hfill, hsign,
    hchosen, rfl, rfl, ?_⟩
  have hzero := Exit.when_eq_ok.mp hcached
  exact Prod.ext (by simpa using hzero) rfl

theorem createStakeTransaction_inv {env : TxEnv} {fromAddr : Str} {stakeAmount : UInt64}
    {encodedInfo : Str} {height : UInt64} {pledgeType : PledgeType} {commissionRate : UInt64}
    {isFindUtxo : Bool} {r : CTransaction × VrfAgentType}
    (h : createStakeTransaction env fromAddr stakeAmount encodedInfo height pledgeType
      commissionRate isFindUtxo = .ok r) :
    ∃ found draft gas tx signed identity,
      findUtxo env.toUtxoEnv [fromAddr] kMaxVinSize isFindUtxo = .ok found ∧
      draftTx env (-8) (fun _ => 0) found.2
        (env.dump (.stake env.kStakeTypeNet stakeAmount commissionRate)) encodedInfo = .ok draft ∧
      env.generateGas draft (stakeTargets env fromAddr) = some gas ∧
      fillVouts env (-10) draft [(env.kVirtualStakeAddr, stakeAmount.toInt64)] fromAddr found.1
        stakeAmount gas = .ok tx ∧
      addMutilSigns env (-11) (txOwners found.2) tx = .ok signed ∧
      chooseIdentity env r.2 found.2 (env.getUTCTimestamp 0) = .ok identity ∧
      r.2 = getTxStartIdentity env height (env.getUTCTimestamp 0) ∧
      r.1 = stampTx env signed (env.getUTCTimestamp 0) 2 identity := by
  -- the six checks of the arguments
  iterate 6 obtain ⟨_, -, h⟩ := bind_eq_ok.mp h
  obtain ⟨found, hfound, h⟩ := bind_eq_ok.mp h
  iterate 2 obtain ⟨_, -, h⟩ := bind_eq_ok.mp h
  obtain ⟨draft, hdraft, h⟩ := bind_eq_ok.mp h
  split at h
  · cases h
  rename_i gas hgas
  obtain ⟨tx, hfill, h⟩ := bind_eq_ok.mp h
  obtain ⟨signed, hsign, h⟩ := bind_eq_ok.mp h
  obtain ⟨identity, hidentity, h⟩ := bind_eq_ok.mp h
  obtain rfl := Except.ok.inj h
  exact ⟨found, draft, gas, tx, signed, identity, Exit.recode_eq_ok.mp hfound, hdraft, hgas, hfill, hsign,
    hidentity, rfl, rfl⟩

theorem createInvestTransaction_inv {env : TxEnv} {fromAddr toAddr : Str}
    {investAmount : UInt64} {encodedInfo : Str} {height : UInt64} {investType : InvestType}
    {isFindUtxo : Bool} {r : CTransaction × VrfAgentType}
    (h : createInvestTransaction env fromAddr toAddr investAmount encodedInfo height investType
      isFindUtxo = .ok r) :
    ∃ found draft gas tx signed identity,
      findUtxo env.toUtxoEnv [fromAddr] kMaxVinSize isFindUtxo = .ok found ∧
      draftTx env (-7) (fun _ => 0) found.2
        (env.dump (.invest env.kInvestTypeNormal toAddr investAmount)) encodedInfo = .ok draft ∧
      env.generateGas draft (stakeTargets env fromAddr) = some gas ∧
      fillVouts env (-9) draft [(env.kVirtualInvestAddr, investAmount.toInt64)] fromAddr found.1
        investAmount gas = .ok tx ∧
      addMutilSigns env (-10) (txOwners found.2) tx = .ok signed ∧
      chooseIdentity env r.2 found.2 (env.getUTCTimestamp 0) = .ok identity ∧
      r.2 = getTxStartIdentity env height (env.getUTCTimestamp 0) ∧
      r.1 = stampTx env signed (env.getUTCTimestamp 0) 4 identity := by
  -- the six checks of the arguments
  iterate 6 obtain ⟨_, -, h⟩ := bind_eq_ok.mp h
  obtain ⟨found, hfound, h⟩ := bind_eq_ok.mp h
  iterate 2 obtain ⟨_, -, h⟩ := bind_eq_ok.mp h
  obtain ⟨draft, hdraft, h⟩ := bind_eq_ok.mp h
  split at h
  · cases h
  rename_i gas hgas
  obtain ⟨tx, hfill, h⟩ := bind_eq_ok.mp h
  obtain ⟨signed, hsign, h⟩ := bind_eq_ok.mp h
  obtain ⟨identity, hidentity, h⟩ := bind_eq_ok.mp h
  obtain rfl := Except.ok.inj h
  exact ⟨found, draft, gas, tx, signed, identity, Exit.recode_eq_ok.mp hfound, hdraft, hgas, hfill, hsign,
    hidentity, rfl, rfl⟩

/-! ### What a builder has put together -/

theorem signVins_eq {env : TxEnv} {code : ℤ} {next : UInt32 → UInt32} {utxos : List Utxo} :
    ∀ (owners : List Str) {n : UInt32} {txUtxo txUtxo' : CTxUtxo},
      signVins env code next utxos owners n txUtxo = .ok txUtxo' →
        ∃ vins, vins.map CTxInput.prevOut = owners.map (prevOutsOf utxos) ∧
          txUtxo' = { txUtxo with owner := txUtxo.owner ++ owners, vin := txUtxo.vin ++ vins }
  | [], _, txUtxo, txUtxo', h => by
    obtain rfl := Except.ok.inj h
    exact ⟨[], rfl, by simp⟩
  | owner :: rest, n, txUtxo, txUtxo', h => by
    simp only [signVins] at h
    split at h
    · cases h
    · rename_i vinSign _
      obtain ⟨vins, hprev, rfl⟩ := signVins_eq rest h
      exact ⟨⟨prevOutsOf utxos owner, some vinSign, n, []⟩ :: vins, by simp [hprev], by simp⟩

/-- The draft spends the selected outputs and has no outputs yet. -/
theorem draftTx_spec {env : TxEnv} {code : ℤ} {next : UInt32 → UInt32} {utxos : List Utxo}
    {data encodedInfo : Str} {draft : CTransaction}
    (h : draftTx env code next utxos data encodedInfo = .ok draft)
    (hval : ∀ u ∈ utxos, utxoValue env.db u.addr u.hash = some u.value) :
    inputValue env.db draft.utxo.owner draft.utxo.vin = utxosValue utxos ∧ draft.utxo.vout = [] := by
  obtain ⟨txUtxo, hu, h⟩ := bind_eq_ok.mp h
  obtain rfl := Except.ok.inj h
  obtain ⟨vins, hprev, rfl⟩ := signVins_eq (txOwners utxos) hu
  exact ⟨inputValue_of_selection hval hprev, rfl⟩

theorem foldl_addVout (payments : List (Str × Int64)) : ∀ u : CTxUtxo,
    payments.foldl (fun u pay => u.addVout pay.1 pay.2) u
      = { u with vout := u.vout ++ payments.map fun pay => ⟨pay.1, pay.2⟩ } := by
  induction payments with
  | nil => intro u; simp
  | cons pay rest ih => intro u; rw [List.foldl_cons, ih]; simp [CTxUtxo.addVout]

theorem fillVouts_spec {env : TxEnv} {code : ℤ} {draft tx : CTransaction}
    {payments : List (Str × Int64)} {changeAddr : Str} {total expend gas : UInt64}
    (h : fillVouts env code draft payments changeAddr total expend gas = .ok tx) :
    expend + gas ≤ total ∧ tx.utxo = { draft.utxo with
      vout := draft.utxo.vout ++ (payments.map fun pay => ⟨pay.1, pay.2⟩)
        ++ [⟨changeAddr, (total - (expend + gas)).toInt64⟩]
        ++ [⟨env.kVirtualBurnGasAddr, gas.toInt64⟩] } := by
  obtain ⟨_, hge, h⟩ := bind_eq_ok.mp h
  obtain rfl := Except.ok.inj h
  refine ⟨UInt64.not_lt.mp (of_decide_eq_false (Exit.when_eq_ok.mp hge)), ?_⟩
  simp only [foldl_addVout]
  rfl

/-- Signing the whole changes nothing but the signatures. -/
theorem addMutilSigns_eq {env : TxEnv} {code : ℤ} : ∀ (owners : List Str) {tx tx' : CTransaction},
    addMutilSigns env code owners tx = .ok tx' →
      ∃ signs, tx' = { tx with utxo := { tx.utxo with multiSign := signs } }
  | [], tx, tx', h => by
    obtain rfl := Except.ok.inj h
    exact ⟨tx.utxo.multiSign, rfl⟩
  | owner :: rest, tx, tx', h => by
    simp only [addMutilSigns] at h
    split at h
    · cases h
    · rename_i signed hsigned
      obtain ⟨signs, rfl⟩ := addMutilSigns_eq rest h
      simp only [addMutilSign] at hsigned
      split_ifs at hsigned
      obtain ⟨s, -, rfl⟩ := Option.map_eq_some_iff.mp hsigned
      exact ⟨signs, rfl⟩

/-! ### Conservation -/

/-- The payments, the gas and the change of outputs worth `held` fit their words: every output is
    below `2 ^ 63`, and the expenditure wraps around as often as the total does. -/
structure PaysInWords (payments : List ℕ) (gas held : ℕ) : Prop where
  paymentsFit : ∀ p ∈ payments, p < 2 ^ 63
  gasFits : gas < 2 ^ 63
  changeFits : held % 2 ^ 64 - (payments.sum + gas) % 2 ^ 64 < 2 ^ 63
  wraps : (payments.sum + gas) / 2 ^ 64 = held / 2 ^ 64

/-- The common end of the three builders: what they return conserves value exactly when payments,
    gas and change fit. -/
theorem builder_conserves_iff {env : TxEnv} {code code' code'' : ℤ} {next : UInt32 → UInt32}
    {fromAddr : List Str} {isFindUtxo : Bool} {found : UInt64 × List Utxo} {data encodedInfo : Str}
    {draft tx tx' : CTransaction} {payments : List (Str × Int64)} {changeAddr : Str}
    {expend gas : UInt64} {owners : List Str} (ws : List UInt64)
    (hfound : findUtxo env.toUtxoEnv fromAddr kMaxVinSize isFindUtxo = .ok found)
    (hdraft : draftTx env code next found.2 data encodedInfo = .ok draft)
    (hfill : fillVouts env code' draft payments changeAddr found.1 expend gas = .ok tx)
    (hsign : addMutilSigns env code'' owners tx = .ok tx')
    (hpay : payments.map Prod.snd = ws.map UInt64.toInt64)
    (hexpend : expend.toNat = (ws.map UInt64.toNat).sum % 2 ^ 64) :
    Conserves env.db tx'.utxo.owner tx'.utxo.vin tx'.utxo.vout ↔
      PaysInWords (ws.map UInt64.toNat) gas.toNat (utxosValue found.2) := by
  obtain ⟨htotal, hsel⟩ := findUtxo_spec hfound
  obtain ⟨hin, hnone⟩ := draftTx_spec hdraft fun u hu => (hsel u hu).2
  obtain ⟨hge, htx⟩ := fillVouts_spec hfill
  obtain ⟨signs, rfl⟩ := addMutilSigns_eq owners hsign
  have hwords : tx.utxo.vout.map CTxOutput.value
      = (ws ++ [found.1 - (expend + gas)] ++ [gas]).map UInt64.toInt64 := by
    rw [htx, hnone, List.nil_append, List.map_append, List.map_append, List.map_append,
      List.map_append, ← hpay, List.map_map]
    rfl
  have hexp : (expend + gas).toNat = ((ws.map UInt64.toNat).sum + gas.toNat) % 2 ^ 64 := by
    rw [UInt64.toNat_add, hexpend]; omega
  have hchange := UInt64.toNat_sub_of_le _ _ hge
  rw [UInt64.le_iff_toNat_le, hexp, htotal] at hge
  rw [hexp, htotal] at hchange
  have hvalue : inputValue env.db tx.utxo.owner tx.utxo.vin = utxosValue found.2 := by
    rw [htx]; exact hin
  rw [conserves_iff_words hwords, hvalue]
  have hsum : ((ws ++ [found.1 - (expend + gas)] ++ [gas]).map UInt64.toNat).sum
      = (ws.map UInt64.toNat).sum + gas.toNat + (found.1 - (expend + gas)).toNat := by
    simp only [List.map_append, List.map_cons, List.map_nil, List.sum_append, List.sum_cons,
      List.sum_nil]
    omega
  rw [hsum, hchange, Word.settle_iff hge]
  constructor
  · rintro ⟨hall, hw⟩
    refine ⟨List.forall_mem_map.mpr fun w hw => hall w (by simp [hw]), hall gas (by simp), ?_, hw⟩
    rw [← hchange]; exact hall _ (by simp)
  · rintro ⟨hpays, hgas, hch, hw⟩
    refine ⟨fun w hw => ?_, hw⟩
    rw [List.mem_append, List.mem_append, List.mem_singleton, List.mem_singleton] at hw
    rcases hw with (hw | rfl) | rfl
    · exact List.forall_mem_map.mp hpays w hw
    · rw [hchange]; exact hch
    · exact hgas

theorem foldl_toUInt64_toNat (entries : List (Str × Int64)) :
    (entries.foldl (fun amount i => amount + i.2.toUInt64) (0 : UInt64)).toNat
      = ((entries.map fun e => e.2.toUInt64).map UInt64.toNat).sum % 2 ^ 64 := by
  have h := Word.foldl_add_toNat (entries.map fun e => e.2.toUInt64) 0
  rw [List.foldl_map] at h
  simpa using h

theorem createTxTransaction_conserves {env : TxEnv} {fromAddr : List Str} {toAddr : Recipients}
    {encodedInfo : Str} {height : UInt64} {isFindUtxo : Bool} {pending : StdMap Str DoubleSpendsuc}
    {r : CTransaction × VrfAgentType × StdMap Str DoubleSpendsuc}
    (h : createTxTransaction env fromAddr toAddr encodedInfo height isFindUtxo pending = .ok r) :
    ∃ found draft gas, findUtxo env.toUtxoEnv fromAddr kMaxVinSize isFindUtxo = .ok found ∧
      draftTx env (-8) (· + 1) found.2 [] encodedInfo = .ok draft ∧
      env.generateGas draft (txTargets env fromAddr toAddr) = some gas ∧
      (Conserves env.db r.1.utxo.owner r.1.utxo.vin r.1.utxo.vout ↔
        PaysInWords (toAddr.entries.map fun e => e.2.toUInt64.toNat) gas.toNat
          (utxosValue found.2)) := by
  obtain ⟨found, draft, gas, tx, signed, chosen, hfound, hdraft, hgas, hfill, hsign, -, -, hr, -⟩ :=
    createTxTransaction_inv h
  refine ⟨found, draft, gas, hfound, hdraft, hgas, ?_⟩
  have hiff := builder_conserves_iff (toAddr.entries.map fun e => e.2.toUInt64) hfound hdraft hfill
    hsign (by rw [List.map_map]; rfl) (foldl_toUInt64_toNat toAddr.entries)
  rw [List.map_map] at hiff
  rw [hr]
  exact hiff

/-- The payment of a stake or invest transaction is one word. -/
theorem single_payment (amount : UInt64) :
    amount.toNat = (([amount] : List UInt64).map UInt64.toNat).sum % 2 ^ 64 := by
  simp

theorem createStakeTransaction_conserves {env : TxEnv} {fromAddr : Str} {stakeAmount : UInt64}
    {encodedInfo : Str} {height : UInt64} {pledgeType : PledgeType} {commissionRate : UInt64}
    {isFindUtxo : Bool} {r : CTransaction × VrfAgentType}
    (h : createStakeTransaction env fromAddr stakeAmount encodedInfo height pledgeType
      commissionRate isFindUtxo = .ok r) :
    ∃ found draft gas, findUtxo env.toUtxoEnv [fromAddr] kMaxVinSize isFindUtxo = .ok found ∧
      draftTx env (-8) (fun _ => 0) found.2
        (env.dump (.stake env.kStakeTypeNet stakeAmount commissionRate)) encodedInfo = .ok draft ∧
      env.generateGas draft (stakeTargets env fromAddr) = some gas ∧
      (Conserves env.db r.1.utxo.owner r.1.utxo.vin r.1.utxo.vout ↔
        PaysInWords [stakeAmount.toNat] gas.toNat (utxosValue found.2)) := by
  obtain ⟨found, draft, gas, tx, signed, identity, hfound, hdraft, hgas, hfill, hsign, -, -, hr⟩ :=
    createStakeTransaction_inv h
  have hiff := builder_conserves_iff [stakeAmount] hfound hdraft hfill hsign rfl (single_payment stakeAmount)
  rw [hr]
  exact ⟨found, draft, gas, hfound, hdraft, hgas, hiff⟩

theorem createInvestTransaction_conserves {env : TxEnv} {fromAddr toAddr : Str}
    {investAmount : UInt64} {encodedInfo : Str} {height : UInt64} {investType : InvestType}
    {isFindUtxo : Bool} {r : CTransaction × VrfAgentType}
    (h : createInvestTransaction env fromAddr toAddr investAmount encodedInfo height investType
      isFindUtxo = .ok r) :
    ∃ found draft gas, findUtxo env.toUtxoEnv [fromAddr] kMaxVinSize isFindUtxo = .ok found ∧
      draftTx env (-7) (fun _ => 0) found.2
        (env.dump (.invest env.kInvestTypeNormal toAddr investAmount)) encodedInfo = .ok draft ∧
      env.generateGas draft (stakeTargets env fromAddr) = some gas ∧
      (Conserves env.db r.1.utxo.owner r.1.utxo.vin r.1.utxo.vout ↔
        PaysInWords [investAmount.toNat] gas.toNat (utxosValue found.2)) := by
  obtain ⟨found, draft, gas, tx, signed, identity, hfound, hdraft, hgas, hfill, hsign, -, -, hr⟩ :=
    createInvestTransaction_inv h
  have hiff := builder_conserves_iff [investAmount] hfound hdraft hfill hsign rfl (single_payment investAmount)
  rw [hr]
  exact ⟨found, draft, gas, hfound, hdraft, hgas, hiff⟩

/-- Each of the three builders returns a transaction that conserves value exactly when its payments,
    its gas and its change fit the words they are computed in. -/
theorem builders_conserve_iff (env : TxEnv) :
    (∀ fromAddr toAddr encodedInfo height isFindUtxo pending r,
      createTxTransaction env fromAddr toAddr encodedInfo height isFindUtxo pending = .ok r →
      ∃ found draft gas, findUtxo env.toUtxoEnv fromAddr kMaxVinSize isFindUtxo = .ok found ∧
        draftTx env (-8) (· + 1) found.2 [] encodedInfo = .ok draft ∧
        env.generateGas draft (txTargets env fromAddr toAddr) = some gas ∧
        (Conserves env.db r.1.utxo.owner r.1.utxo.vin r.1.utxo.vout ↔
          PaysInWords (toAddr.entries.map fun e => e.2.toUInt64.toNat) gas.toNat
            (utxosValue found.2))) ∧
    (∀ fromAddr stakeAmount encodedInfo height pledgeType commissionRate isFindUtxo r,
      createStakeTransaction env fromAddr stakeAmount encodedInfo height pledgeType commissionRate
        isFindUtxo = .ok r →
      ∃ found draft gas, findUtxo env.toUtxoEnv [fromAddr] kMaxVinSize isFindUtxo = .ok found ∧
        draftTx env (-8) (fun _ => 0) found.2
          (env.dump (.stake env.kStakeTypeNet stakeAmount commissionRate)) encodedInfo = .ok draft ∧
        env.generateGas draft (stakeTargets env fromAddr) = some gas ∧
        (Conserves env.db r.1.utxo.owner r.1.utxo.vin r.1.utxo.vout ↔
          PaysInWords [stakeAmount.toNat] gas.toNat (utxosValue found.2))) ∧
    ∀ fromAddr toAddr investAmount encodedInfo height investType isFindUtxo r,
      createInvestTransaction env fromAddr toAddr investAmount encodedInfo height investType
        isFindUtxo = .ok r →
      ∃ found draft gas, findUtxo env.toUtxoEnv [fromAddr] kMaxVinSize isFindUtxo = .ok found ∧
        draftTx env (-7) (fun _ => 0) found.2
          (env.dump (.invest env.kInvestTypeNormal toAddr investAmount)) encodedInfo = .ok draft ∧
        env.generateGas draft (stakeTargets env fromAddr) = some gas ∧
        (Conserves env.db r.1.utxo.owner r.1.utxo.vin r.1.utxo.vout ↔
          PaysInWords [investAmount.toNat] gas.toNat (utxosValue found.2)) :=
  ⟨fun _ _ _ _ _ _ _ h => createTxTransaction_conserves h,
    fun _ _ _ _ _ _ _ _ h => createStakeTransaction_conserves h,
    fun _ _ _ _ _ _ _ _ h => createInvestTransaction_conserves h⟩

/-- A node where `A` owns one output of 100000 and every gas is 5. -/
def builderEnv : TxEnv where
  db := ⟨fun key =>
    if key = kAddress2UtxoKey ++ str "A" then .found (str "h")
    else if key = str "A_h" then .found (str "100000")
    else .notFound⟩
  sortUtxos := .insertion
  sendConfirmUtxoHashReq := fun _ => 0
  kDecimalNum := 1
  kTxSign := str "sign"
  kStakeTypeNet := str "Net"
  kInvestTypeNormal := str "Normal"
  kVirtualStakeAddr := str "stake"
  kVirtualInvestAddr := str "invest"
  kVirtualBurnGasAddr := str "burn"
  kConsensus := 7
  kCurrentTransactionVersion := 1
  isValidAddress := fun _ => true
  getsha256hash := id
  serializeVin := fun _ => []
  serializeUtxo := fun _ => []
  serializeTx := fun _ => []
  dump := fun _ => []
  sign := fun _ _ => some ⟨[], []⟩
  generateGas := fun _ _ => some 5
  getUTCTimestamp := fun _ => 1
  checkTxTimeOut := fun _ _ => true
  getIdentityNodes := str "N"
  getEligibleNodes := []
  getBlockPackager := fun _ _ => (0, str "P")
  checkInvestQualification := fun _ _ _ => 0

/-- `A` pays `B` ten. -/
def toB : Recipients := ⟨[(str "B", 10)], by simp⟩

/-- All three builders at work on the same node: a payment of 10, a stake of 2000, an investment of
    2000, each with a gas of 5. -/
theorem builders_conserve_small :
    (∃ r, createTxTransaction builderEnv [str "A"] toB [] 1 false .empty = .ok r ∧
      Conserves builderEnv.db r.1.utxo.owner r.1.utxo.vin r.1.utxo.vout) ∧
    (∃ r, createStakeTransaction builderEnv (str "A") 2000 [] 1 .node 0 false = .ok r ∧
      Conserves builderEnv.db r.1.utxo.owner r.1.utxo.vin r.1.utxo.vout) ∧
    ∃ r, createInvestTransaction builderEnv (str "A") (str "B") 2000 [] 1 .netLicence false = .ok r ∧
      Conserves builderEnv.db r.1.utxo.owner r.1.utxo.vin r.1.utxo.vout := by
  have hheld : ∀ found, findUtxo builderEnv.toUtxoEnv [str "A"] kMaxVinSize false = .ok found →
      utxosValue found.2 = 100000 := by
    intro found hfound
    obtain ⟨found', hfound', hval⟩ := ok_of_eval (b := 100000) (f := fun f => utxosValue f.2)
      (m := findUtxo builderEnv.toUtxoEnv [str "A"] kMaxVinSize false) (by decide)
    rw [hfound] at hfound'
    rw [Except.ok.inj hfound']; exact hval
  refine ⟨?_, ?_, ?_⟩
  · obtain ⟨r, hrun, -⟩ := ok_of_eval (b := ()) (f := fun _ => ())
      (m := createTxTransaction builderEnv [str "A"] toB [] 1 false .empty) (by decide)
    obtain ⟨found, draft, gas, hfound, -, hgas, hiff⟩ :=
      (builders_conserve_iff builderEnv).1 _ _ _ _ _ _ r hrun
    obtain rfl : 5 = gas := Option.some.inj hgas
    rw [hheld found hfound] at hiff
    exact ⟨r, hrun, hiff.mpr ⟨by decide, by decide, by decide, by decide⟩⟩
  · obtain ⟨r, hrun, -⟩ := ok_of_eval (b := ()) (f := fun _ => ())
      (m := createStakeTransaction builderEnv (str "A") 2000 [] 1 .node 0 false) (by decide)
    obtain ⟨found, draft, gas, hfound, -, hgas, hiff⟩ :=
      (builders_conserve_iff builderEnv).2.1 _ _ _ _ _ _ _ r hrun
    obtain rfl : 5 = gas := Option.some.inj hgas
    rw [hheld found hfound] at hiff
    exact ⟨r, hrun, hiff.mpr ⟨by decide, by decide, by decide, by decide⟩⟩
  · obtain ⟨r, hrun, -⟩ := ok_of_eval (b := ()) (f := fun _ => ())
      (m := createInvestTransaction builderEnv (str "A") (str "B") 2000 [] 1 .netLicence false)
      (by decide)
    obtain ⟨found, draft, gas, hfound, -, hgas, hiff⟩ :=
      (builders_conserve_iff builderEnv).2.2 _ _ _ _ _ _ _ r hrun
    obtain rfl : 5 = gas := Option.some.inj hgas
    rw [hheld found hfound] at hiff
    exact ⟨r, hrun, hiff.mpr ⟨by decide, by decide, by decide, by decide⟩⟩

/-- Two payments of `2 ^ 63 - 1` and one of 2 add up to zero. -/
def toThree : Recipients :=
  ⟨[(str "B", 2 ^ 63 - 1), (str "C", 2 ^ 63 - 1), (str "D", 2)], by decide⟩

/-- The recipients' sum wraps around, so `A` pays out `2 ^ 64` with its 100000. -/
theorem createTxTransaction_creates_value :
    ∃ r, createTxTransaction builderEnv [str "A"] toThree [] 1 false .empty = .ok r ∧
      ¬ Conserves builderEnv.db r.1.utxo.owner r.1.utxo.vin r.1.utxo.vout := by
  obtain ⟨r, hrun, hval⟩ := ok_of_eval (b := false)
    (f := fun r => decide (Conserves builderEnv.db r.1.utxo.owner r.1.utxo.vin r.1.utxo.vout))
    (m := createTxTransaction builderEnv [str "A"] toThree [] 1 false .empty) (by decide +kernel)
  exact ⟨r, hrun, of_decide_eq_false hval⟩

end Tfs.Ca
