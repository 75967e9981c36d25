import Tfs.Ca.TxHelper

/-! The builders that pay back (`TxHelper::CreatUnstakeTransaction`, `CreateDisinvestTransaction`,
    `CreateBonusTransaction`).

    The first two spend, besides outputs of the sender, the output that holds the stake or the
    investment; the third pays the investors of a node and the node's own commission out of nothing but
    the amounts that `CalcBonusValue` names. -/

namespace Tfs.Ca

/-- The `TxInfo` object of these builders. -/
inductive RedeemInfo where
  | unstake (unstakeUtxo : Str)
  | disinvest (bonusAddr disinvestUtxo : Str)
  | bonus (bonusAmount : UInt64) (bonusAddrList : ℕ)
  deriving DecidableEq, Repr

/-- `std::map<std::string, uint64_t>`: what each investor has earned, in key order. -/
structure Dividends where
  entries : List (Str × UInt64)
  sorted : (entries.map Prod.fst).Pairwise (· < ·)

/-- What these builders use besides: the qualification checks with the amounts they report, and the
    bonus arithmetic. A rate is carried by the bits of its double. -/
structure BuilderEnv extends TxEnv where
  isQualifiedToUnstake : Str → Str → ℤ × UInt64
  isQualifiedToDisinvest : Str → Str → Str → ℤ × UInt64
  checkBonusQualification : Str → UInt64 → ℤ
  calcBonusValue : UInt64 → Str → ℤ × Dividends
  /-- the rate, or the code of the failure -/
  getCommissionPercentage : Str → Except ℤ UInt64
  /-- `company.second*tempcommissionRate+0.5`, computed in doubles and stored in a `uint64_t` -/
  costoOf : UInt64 → UInt64 → UInt64
  dumpRedeem : RedeemInfo → Str
  getDefaultAddr : Str

/-! ### `CreatUnstakeTransaction` and `CreateDisinvestTransaction` -/

/-- The input that spends the held output; a failed signature returns `code`. -/
def signRedeemVin (env : TxEnv) (code : ℤ) (fromAddr utxoHash : Str) : Except Exit CTxUtxo :=
  let txin : CTxInput := ⟨[⟨utxoHash, 1⟩], none, 0, []⟩
  match env.sign fromAddr (env.getsha256hash (env.serializeVin txin)) with
  | none => .error (.ret code)
  | some vinSign =>
    .ok { CTxUtxo.cleared with owner := [fromAddr], vin := [{ txin with vinSign := some vinSign }] }

/-- The packager: the held output's hash stands before those of the other inputs. -/
def chooseRedeemIdentity (env : TxEnv) (type : VrfAgentType) (utxoHash : Str) (utxos : List Utxo)
    (currentTime : UInt64) : Except Exit Str :=
  if type = .defalut ∨ type = .local then .ok (ownIdentity env)
  else
    let answer := env.getBlockPackager 0
      (utxoHash ++ (utxos.map Utxo.hash).flatten ++ timeToString currentTime)
    if answer.1 ≠ 0 then .error (.ret answer.1) else .ok answer.2

/-- `TxHelper::CreatUnstakeTransaction`. -/
def creatUnstakeTransaction (env : BuilderEnv) (fromAddr utxoHash encodedInfo : Str) (height : UInt64)
    (isFindUtxo : Bool) : Except Exit (CTransaction × VrfAgentType) := do
  Exit.recode (· - 100) (check env.toTxEnv [fromAddr] height)
  Exit.when (!env.isValidAddress fromAddr) (-1)
  let qualified := env.isQualifiedToUnstake fromAddr utxoHash
  Exit.when (qualified.1 != 0) (qualified.1 - 200)
  let found ← Exit.recode (· - 300) (findUtxo env.toUtxoEnv [fromAddr] (kMaxVinSize - 1) isFindUtxo)
  Exit.when found.2.isEmpty (-2)
  Exit.when (txOwners found.2).isEmpty (-3)
  let txUtxo ← signRedeemVin env.toTxEnv (-4) fromAddr utxoHash
  let txUtxo ← signVins env.toTxEnv (-5) (fun _ => 1) found.2 (txOwners found.2) 1 txUtxo
  let draft := { CTransaction.cleared with
    utxo := txUtxo, data := env.dumpRedeem (.unstake utxoHash), info := encodedInfo
    type := env.kTxSign, version := env.kCurrentTransactionVersion }
  match env.generateGas draft (stakeTargets env.toTxEnv fromAddr) with
  | none => .error (.ret (-6))
  | some gas =>
    let currentTime := env.getUTCTimestamp 0
    let type := getTxStartIdentity env.toTxEnv height currentTime
    let tx ← fillVouts env.toTxEnv (-7) draft [(fromAddr, qualified.2.toInt64)] fromAddr found.1 0 gas
    let tx ← addMutilSigns env.toTxEnv (-8) (txOwners found.2) tx
    let identity ← chooseRedeemIdentity env.toTxEnv type utxoHash found.2 currentTime
    let tx := { tx with
      time := currentTime
      version := env.kCurrentTransactionVersion
      consensus := env.kConsensus
      txType := 3
      identity := identity }
    .ok ({ tx with hash := env.getsha256hash (env.serializeTx tx) }, type)

/-- `TxHelper::CreateDisinvestTransaction`. -/
def createDisinvestTransaction (env : BuilderEnv) (fromAddr toAddr utxoHash encodedInfo : Str)
    (height : UInt64) (isFindUtxo : Bool) : Except Exit (CTransaction × VrfAgentType) := do
  Exit.recode (· - 100) (check env.toTxEnv [fromAddr] height)
  Exit.when (!env.isValidAddress fromAddr) (-1)
  Exit.when (!env.isValidAddress toAddr) (-2)
  let qualified := env.isQualifiedToDisinvest fromAddr toAddr utxoHash
  Exit.when (qualified.1 != 0) (-3)
  let found ← Exit.recode (· - 300) (findUtxo env.toUtxoEnv [fromAddr] (kMaxVinSize - 1) isFindUtxo)
  Exit.when found.2.isEmpty (-4)
  Exit.when (txOwners found.2).isEmpty (-5)
  let txUtxo ← signRedeemVin env.toTxEnv (-6) fromAddr utxoHash
  let txUtxo ← signVins env.toTxEnv (-7) (fun _ => 1) found.2 (txOwners found.2) 1 txUtxo
  let draft := { CTransaction.cleared with
    utxo := txUtxo, data := env.dumpRedeem (.disinvest toAddr utxoHash), info := encodedInfo
    type := env.kTxSign }
  match env.generateGas draft (stakeTargets env.toTxEnv fromAddr) with
  | none => .error (.ret (-8))
  | some gas =>
    let currentTime := env.getUTCTimestamp 0
    let type := getTxStartIdentity env.toTxEnv height currentTime
    let tx ← fillVouts env.toTxEnv (-9) draft [(fromAddr, qualified.2.toInt64)] fromAddr found.1 0 gas
    let tx ← addMutilSigns env.toTxEnv (-10) (txOwners found.2) tx
    let identity ← chooseRedeemIdentity env.toTxEnv type utxoHash found.2 currentTime
    let tx := { tx with
      time := currentTime
      version := env.kCurrentTransactionVersion
      consensus := env.kConsensus
      txType := 5
      identity := identity }
    .ok ({ tx with hash := env.getsha256hash (env.serializeTx tx) }, type)

/-! ### `CreateBonusTransaction` -/

/-- The loop over `companyDividend`: the awards of the investors, the node's share, and the sum of the
    awards. -/
structure BonusShares where
  awards : List (Str × UInt64)
  nodeDividend : UInt64
  totalClaim : UInt64

/-- One investor: the commission goes to the node, the rest is the award. -/
def BonusShares.add (costoOf : UInt64 → UInt64) (shares : BonusShares) (company : Str × UInt64) :
    BonusShares :=
  let costo := costoOf company.2
  let award := company.2 - costo
  ⟨shares.awards ++ [(company.1, award)], shares.nodeDividend + costo, shares.totalClaim + award⟩

/-- The loop over all of them. -/
def bonusShares (env : BuilderEnv) (companyDividend : Dividends) (rate : UInt64) : BonusShares :=
  companyDividend.entries.foldl (BonusShares.add fun amount => env.costoOf amount rate) ⟨[], 0, 0⟩

/-- The number of addresses `GenerateGas` counts for a bonus transaction. -/
def bonusTargets (env : TxEnv) (companyDividend : Dividends) : ℕ :=
  (sortedSet (companyDividend.entries.map Prod.fst
    ++ [env.kVirtualStakeAddr, env.kVirtualBurnGasAddr])).length

/-- The vouts of a bonus transaction: the awards, the change with the node's share, the gas. -/
def fillBonusVouts (env : TxEnv) (code : ℤ) (draft : CTransaction) (shares : BonusShares) (addr : Str)
    (total gas : UInt64) : Except Exit CTransaction := do
  Exit.when (total < gas) code
  let txUtxo := shares.awards.foldl (fun u pay => u.addVout pay.1 pay.2.toInt64) draft.utxo
  let txUtxo := txUtxo.addVout addr (total - gas + shares.nodeDividend).toInt64
  .ok { draft with utxo := txUtxo.addVout env.kVirtualBurnGasAddr gas.toInt64 }

/-- The packager of a bonus transaction; the node that packs for itself names its own account. -/
def chooseBonusIdentity (env : BuilderEnv) (type : VrfAgentType) (utxos : List Utxo)
    (currentTime : UInt64) : Except Exit Str :=
  if type = .defalut ∨ type = .local then .ok env.getDefaultAddr
  else
    let answer := env.getBlockPackager 0 ((utxos.map Utxo.hash).flatten ++ timeToString currentTime)
    if answer.1 ≠ 0 then .error (.ret answer.1) else .ok answer.2

/-- `TxHelper::CreateBonusTransaction`. -/
def createBonusTransaction (env : BuilderEnv) (addr encodedInfo : Str) (height : UInt64)
    (isFindUtxo : Bool) : Except Exit (CTransaction × VrfAgentType) := do
  Exit.recode (· - 100) (check env.toTxEnv [addr] height)
  Exit.when (!env.isValidAddress addr) (-1)
  let curTime := env.getUTCTimestamp 0
  let qualified := env.checkBonusQualification addr curTime
  Exit.when (qualified != 0) (qualified - 200)
  let bonus := env.calcBonusValue curTime addr
  Exit.when (bonus.1 < 0) (bonus.1 - 300)
  let found ← Exit.recode (· - 400) (findUtxo env.toUtxoEnv [addr] (kMaxVinSize - 1) isFindUtxo)
  Exit.when found.2.isEmpty (-2)
  Exit.when (txOwners found.2).isEmpty (-3)
  let txUtxo ← signVins env.toTxEnv (-4) (fun _ => 0) found.2 (txOwners found.2) 0 .cleared
  match env.getCommissionPercentage addr with
  | .error _ => .error (.ret (-100))
  | .ok tempcommissionRate =>
    let shares := bonusShares env bonus.2 tempcommissionRate
    let totalClaim := shares.totalClaim + shares.nodeDividend
    let draft := { CTransaction.cleared with
      utxo := txUtxo, data := env.dumpRedeem (.bonus totalClaim (bonus.2.entries.length + 2))
      info := encodedInfo, type := env.kTxSign }
    match env.generateGas draft (bonusTargets env.toTxEnv bonus.2) with
    | none => .error (.ret (-5))
    | some gas =>
      let currentTime := env.getUTCTimestamp 1
      let type := getTxStartIdentity env.toTxEnv height currentTime
      let tx ← fillBonusVouts env.toTxEnv (-6) draft shares addr found.1 gas
      let tx := { tx with
        time := currentTime
        version := env.kCurrentTransactionVersion
        consensus := env.kConsensus
        txType := 99 }
      Exit.when (totalClaim == 0) (-7)
      let tx ← addMutilSigns env.toTxEnv (-8) (txOwners found.2) tx
      let identity ← chooseBonusIdentity env type found.2 currentTime
      let tx := { tx with identity := identity }
      .ok ({ tx with hash := env.getsha256hash (env.serializeTx tx) }, type)

/-! ### All kinds -/

/-- The arguments of a builder, by the kind of transaction. -/
inductive BuilderArgs where
  | tx (fromAddr : List Str) (toAddr : Recipients)
  | stake (fromAddr : Str) (stakeAmount : UInt64) (pledgeType : PledgeType) (commissionRate : UInt64)
  | unstake (fromAddr utxoHash : Str)
  | invest (fromAddr toAddr : Str) (investAmount : UInt64) (investType : InvestType)
  | disinvest (fromAddr toAddr utxoHash : Str)
  | bonus (addr : Str)

/-- The node's builder for the arguments: the transaction and its agent type. -/
def BuilderArgs.create (env : BuilderEnv) (encodedInfo : Str) (height : UInt64) (isFindUtxo : Bool)
    (pending : StdMap Str DoubleSpendsuc) : BuilderArgs → Except Exit (CTransaction × VrfAgentType)
  | .tx fromAddr toAddr =>
    (createTxTransaction env.toTxEnv fromAddr toAddr encodedInfo height isFindUtxo pending).map
      fun r => (r.1, r.2.1)
  | .stake fromAddr stakeAmount pledgeType commissionRate =>
    createStakeTransaction env.toTxEnv fromAddr stakeAmount encodedInfo height pledgeType commissionRate
      isFindUtxo
  | .unstake fromAddr utxoHash => creatUnstakeTransaction env fromAddr utxoHash encodedInfo height isFindUtxo
  | .invest fromAddr toAddr investAmount investType =>
    createInvestTransaction env.toTxEnv fromAddr toAddr investAmount encodedInfo height investType isFindUtxo
  | .disinvest fromAddr toAddr utxoHash =>
    createDisinvestTransaction env fromAddr toAddr utxoHash encodedInfo height isFindUtxo
  | .bonus addr => createBonusTransaction env addr encodedInfo height isFindUtxo

/-! ### The steps of a builder that succeeds -/

theorem creatUnstakeTransaction_inv {env : BuilderEnv} {fromAddr utxoHash encodedInfo : Str}
    {height : UInt64} {isFindUtxo : Bool} {r : CTransaction × VrfAgentType}
    (h : creatUnstakeTransaction env fromAddr utxoHash encodedInfo height isFindUtxo = .ok r) :
    ∃ found held txUtxo gas tx signed identity,
      findUtxo env.toUtxoEnv [fromAddr] (kMaxVinSize - 1) isFindUtxo = .ok found ∧
      signRedeemVin env.toTxEnv (-4) fromAddr utxoHash = .ok held ∧
      signVins env.toTxEnv (-5) (fun _ => 1) found.2 (txOwners found.2) 1 held = .ok txUtxo ∧
      env.generateGas { CTransaction.cleared with
        utxo := txUtxo, data := env.dumpRedeem (.unstake utxoHash), info := encodedInfo
        type := env.kTxSign, version := env.kCurrentTransactionVersion }
        (stakeTargets env.toTxEnv fromAddr) = some gas ∧
      fillVouts env.toTxEnv (-7) { CTransaction.cleared with
        utxo := txUtxo, data := env.dumpRedeem (.unstake utxoHash), info := encodedInfo
        type := env.kTxSign, version := env.kCurrentTransactionVersion }
        [(fromAddr, (env.isQualifiedToUnstake fromAddr utxoHash).2.toInt64)] fromAddr found.1 0 gas
          = .ok tx ∧
      addMutilSigns env.toTxEnv (-8) (txOwners found.2) tx = .ok signed ∧
      chooseRedeemIdentity env.toTxEnv r.2 utxoHash found.2 (env.getUTCTimestamp 0) = .ok identity ∧
      r.2 = getTxStartIdentity env.toTxEnv height (env.getUTCTimestamp 0) ∧
      r.1 = stampTx env.toTxEnv signed (env.getUTCTimestamp 0) 3 identity := by
  -- the three checks of the arguments
  iterate 3 obtain ⟨_, -, h⟩ := bind_eq_ok.mp h
  obtain ⟨found, hfound, h⟩ := bind_eq_ok.mp h
  iterate 2 obtain ⟨_, -, h⟩ := bind_eq_ok.mp h
  obtain ⟨held, hheld, h⟩ := bind_eq_ok.mp h
  obtain ⟨txUtxo, hvins, h⟩ := bind_eq_ok.mp h
  dsimp only at h
  split at h
  · cases h
  rename_i gas hgas
  obtain ⟨tx, hfill, h⟩ := bind_eq_ok.mp h
  obtain ⟨signed, hsign, h⟩ := bind_eq_ok.mp h
  obtain ⟨identity, hidentity, h⟩ := bind_eq_ok.mp h
  obtain rfl := Except.ok.inj h
  exact ⟨found, held, txUtxo, gas, tx, signed, identity, Exit.recode_eq_ok.mp hfound, hheld, hvins, hgas,
    hfill, hsign, hidentity, rfl, rfl⟩

theorem createDisinvestTransaction_inv {env : BuilderEnv} {fromAddr toAddr utxoHash encodedInfo : Str}
    {height : UInt64} {isFindUtxo : Bool} {r : CTransaction × VrfAgentType}
    (h : createDisinvestTransaction env fromAddr toAddr utxoHash encodedInfo height isFindUtxo = .ok r) :
    ∃ found held txUtxo gas tx signed identity,
      findUtxo env.toUtxoEnv [fromAddr] (kMaxVinSize - 1) isFindUtxo = .ok found ∧
      signRedeemVin env.toTxEnv (-6) fromAddr utxoHash = .ok held ∧
      signVins env.toTxEnv (-7) (fun _ => 1) found.2 (txOwners found.2) 1 held = .ok txUtxo ∧
      env.generateGas { CTransaction.cleared with
        utxo := txUtxo, data := env.dumpRedeem (.disinvest toAddr utxoHash), info := encodedInfo
        type := env.kTxSign } (stakeTargets env.toTxEnv fromAddr) = some gas ∧
      fillVouts env.toTxEnv (-9) { CTransaction.cleared with
        utxo := txUtxo, data := env.dumpRedeem (.disinvest toAddr utxoHash), info := encodedInfo
        type := env.kTxSign }
        [(fromAddr, (env.isQualifiedToDisinvest fromAddr toAddr utxoHash).2.toInt64)] fromAddr found.1 0
          gas = .ok tx ∧
      addMutilSigns env.toTxEnv (-10) (txOwners found.2) tx = .ok signed ∧
      chooseRedeemIdentity env.toTxEnv r.2 utxoHash found.2 (env.getUTCTimestamp 0) = .ok identity ∧
      r.2 = getTxStartIdentity env.toTxEnv height (env.getUTCTimestamp 0) ∧
      r.1 = stampTx env.toTxEnv signed (env.getUTCTimestamp 0) 5 identity := by
  -- the four checks of the arguments
  iterate 4 obtain ⟨_, -, h⟩ := bind_eq_ok.mp h
  obtain ⟨found, hfound, h⟩ := bind_eq_ok.mp h
  iterate 2 obtain ⟨_, -, h⟩ := bind_eq_ok.mp h
  obtain ⟨held, hheld, h⟩ := bind_eq_ok.mp h
  obtain ⟨txUtxo, hvins, h⟩ := bind_eq_ok.mp h
  dsimp only at h
  split at h
  · cases h
  rename_i gas hgas
  obtain ⟨tx, hfill, h⟩ := bind_eq_ok.mp h
  obtain ⟨signed, hsign, h⟩ := bind_eq_ok.mp h
  obtain ⟨identity, hidentity, h⟩ := bind_eq_ok.mp h
  obtain rfl := Except.ok.inj h
  exact ⟨found, held, txUtxo, gas, tx, signed, identity, Exit.recode_eq_ok.mp hfound, hheld, hvins, hgas,
    hfill, hsign, hidentity, rfl, rfl⟩

/-- The draft of a bonus transaction, whatever its inputs are. -/
def bonusDraft (env : BuilderEnv) (txUtxo : CTxUtxo) (bonus : Dividends) (rate : UInt64)
    (encodedInfo : Str) : CTransaction :=
  { CTransaction.cleared with
    utxo := txUtxo
    data := env.dumpRedeem (.bonus ((bonusShares env bonus rate).totalClaim
      + (bonusShares env bonus rate).nodeDividend) (bonus.entries.length + 2))
    info := encodedInfo
    type := env.kTxSign }

theorem createBonusTransaction_inv {env : BuilderEnv} {addr encodedInfo : Str} {height : UInt64}
    {isFindUtxo : Bool} {r : CTransaction × VrfAgentType}
    (h : createBonusTransaction env addr encodedInfo height isFindUtxo = .ok r) :
    ∃ found txUtxo rate gas tx signed identity,
      findUtxo env.toUtxoEnv [addr] (kMaxVinSize - 1) isFindUtxo = .ok found ∧
      signVins env.toTxEnv (-4) (fun _ => 0) found.2 (txOwners found.2) 0 .cleared = .ok txUtxo ∧
      env.getCommissionPercentage addr = .ok rate ∧
      env.generateGas
        (bonusDraft env txUtxo (env.calcBonusValue (env.getUTCTimestamp 0) addr).2 rate encodedInfo)
        (bonusTargets env.toTxEnv (env.calcBonusValue (env.getUTCTimestamp 0) addr).2) = some gas ∧
      fillBonusVouts env.toTxEnv (-6)
        (bonusDraft env txUtxo (env.calcBonusValue (env.getUTCTimestamp 0) addr).2 rate encodedInfo)
        (bonusShares env (env.calcBonusValue (env.getUTCTimestamp 0) addr).2 rate) addr found.1 gas
          = .ok tx ∧
      addMutilSigns env.toTxEnv (-8) (txOwners found.2) { tx with
        time := env.getUTCTimestamp 1, version := env.kCurrentTransactionVersion
        consensus := env.kConsensus, txType := 99 } = .ok signed ∧
      chooseBonusIdentity env r.2 found.2 (env.getUTCTimestamp 1) = .ok identity ∧
      r.2 = getTxStartIdentity env.toTxEnv height (env.getUTCTimestamp 1) ∧
      r.1 = { signed with
        identity := identity
        hash := env.getsha256hash (env.serializeTx { signed with identity := identity }) } := by
  -- the four checks of the arguments
  iterate 4 obtain ⟨_, -, h⟩ := bind_eq_ok.mp h
  obtain ⟨found, hfound, h⟩ := bind_eq_ok.mp h
  iterate 2 obtain ⟨_, -, h⟩ := bind_eq_ok.mp h
  obtain ⟨txUtxo, hvins, h⟩ := bind_eq_ok.mp h
  dsimp only at h
  split at h
  · cases h
  rename_i rate hrate
  split at h
  · cases h
  rename_i gas hgas
  obtain ⟨tx, hfill, h⟩ := bind_eq_ok.mp h
  obtain ⟨_, -, h⟩ := bind_eq_ok.mp h
  obtain ⟨signed, hsign, h⟩ := bind_eq_ok.mp h
  obtain ⟨identity, hidentity, h⟩ := bind_eq_ok.mp h
  obtain rfl := Except.ok.inj h
  exact ⟨found, txUtxo, rate, gas, tx, signed, identity, Exit.recode_eq_ok.mp hfound, hvins, hrate, hgas,
    hfill, hsign, hidentity, rfl, rfl⟩

end Tfs.Ca
