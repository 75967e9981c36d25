import Tfs.Api.RpcCreateTransaction

/-! The builders of the node against their copies behind the RPC interface.

    What the two have in common is a sequence of steps: select outputs, fill the inputs, ask for the gas
    of the draft, fill the outputs. The node signs the inputs before it asks for the gas, and the whole
    afterwards. Up to the signatures every step gives the same on both sides. -/

namespace Tfs

/-! ### A transaction without its signatures -/

/-- The input without its signature. -/
def CTxInput.unsigned (vin : CTxInput) : CTxInput := { vin with vinSign := none }

/-- Owners, inputs and outputs without the signatures. -/
def CTxUtxo.unsigned (u : CTxUtxo) : CTxUtxo := { u with vin := u.vin.map CTxInput.unsigned, multiSign := [] }

/-- The transaction without the signatures. -/
def CTransaction.unsigned (tx : CTransaction) : CTransaction := { tx with utxo := tx.utxo.unsigned }

/-- Everything but the signatures, the time, the identity and the hash: owners, previous outputs and
    sequences of the inputs, outputs, `data`, `info`, `type`, `version`, `consensus` and `txType`. -/
def CTransaction.content (tx : CTransaction) : CTransaction :=
  { tx.unsigned with time := 0, identity := [], hash := [] }

end Tfs

namespace Tfs.Api
open Tfs.Ca

/-- The gas does not depend on the signatures. -/
def GasIgnoresSigns (env : TxEnv) : Prop := ∀ tx n, env.generateGas tx n = env.generateGas tx.unsigned n

/-! ### The steps -/

section Steps
variable {env : TxEnv} {code : ℤ}

/-- The signed inputs are the unsigned ones, up to the signatures. -/
theorem signVins_unsigned {next : UInt32 → UInt32} {utxos : List Utxo} :
    ∀ (owners : List Str) {n : UInt32} {u u' v : CTxUtxo}, signVins env code next utxos owners n u = .ok u' →
      u.unsigned = v.unsigned → u'.unsigned = (fillVins next utxos owners n v).unsigned
  | [], _, u, u', v, h, huv => by
    obtain rfl := Except.ok.inj h
    exact huv
  | owner :: rest, n, u, u', v, h, huv => by
    simp only [signVins] at h
    split at h
    · cases h
    · refine signVins_unsigned rest h ?_
      simp only [CTxUtxo.unsigned, CTxUtxo.mk.injEq] at huv ⊢
      simp [huv, CTxInput.unsigned]

theorem signRedeemVin_unsigned {fromAddr utxoHash : Str} {u : CTxUtxo}
    (h : signRedeemVin env code fromAddr utxoHash = .ok u) :
    u.unsigned = (redeemVin fromAddr utxoHash).unsigned := by
  simp only [signRedeemVin] at h
  split at h
  · cases h
  · obtain rfl := Except.ok.inj h
    rfl

/-- The node's draft is the RPC's, up to the signatures. -/
theorem draftTx_unsigned {next : UInt32 → UInt32} {utxos : List Utxo} {data encodedInfo : Str}
    {draft : CTransaction} (h : draftTx env code next utxos data encodedInfo = .ok draft) :
    draft.unsigned =
      (rpcDraft env (fillVins next utxos (txOwners utxos) 0 .cleared) data encodedInfo).unsigned := by
  obtain ⟨txUtxo, hvins, h⟩ := bind_eq_ok.mp h
  obtain rfl := Except.ok.inj h
  have hutxo := signVins_unsigned (v := .cleared) _ hvins rfl
  simp only [CTransaction.unsigned, rpcDraft, hutxo]

/-- The outputs are appended to a draft as to the draft without its signatures. -/
theorem fillVouts_unsigned {draft tx : CTransaction} {payments : List (Str × Int64)} {changeAddr : Str}
    {total expend gas : UInt64}
    (h : fillVouts env code draft payments changeAddr total expend gas = .ok tx) :
    tx.unsigned = { draft.unsigned with utxo := { draft.unsigned.utxo with
      vout := draft.unsigned.utxo.vout ++ (payments.map fun pay => ⟨pay.1, pay.2⟩)
        ++ [⟨changeAddr, (total - (expend + gas)).toInt64⟩]
        ++ [⟨env.kVirtualBurnGasAddr, gas.toInt64⟩] } } := by
  obtain ⟨_, -, h⟩ := bind_eq_ok.mp h
  obtain rfl := Except.ok.inj h
  simp only [foldl_addVout]
  rfl

theorem fillBonusVouts_unsigned {draft tx : CTransaction} {shares : BonusShares} {addr : Str}
    {total gas : UInt64} (h : fillBonusVouts env code draft shares addr total gas = .ok tx) :
    tx.unsigned = { draft.unsigned with utxo := { draft.unsigned.utxo with
      vout := draft.unsigned.utxo.vout ++ (shares.awards.map fun pay => ⟨pay.1, pay.2.toInt64⟩)
        ++ [⟨addr, (total - gas + shares.nodeDividend).toInt64⟩]
        ++ [⟨env.kVirtualBurnGasAddr, gas.toInt64⟩] } } := by
  obtain ⟨_, -, h⟩ := bind_eq_ok.mp h
  obtain rfl := Except.ok.inj h
  have hfold := foldl_addVout (shares.awards.map fun pay => (pay.1, pay.2.toInt64)) draft.utxo
  rw [List.foldl_map] at hfold
  rw [hfold, List.map_map]
  rfl

theorem addMutilSigns_unsigned (owners : List Str) {tx tx' : CTransaction}
    (h : addMutilSigns env code owners tx = .ok tx') : tx'.unsigned = tx.unsigned := by
  obtain ⟨signs, rfl⟩ := addMutilSigns_eq owners h
  rfl

end Steps

section Kinds
variable {env : RpcEnv} (hgas : GasIgnoresSigns env.toTxEnv)

include hgas

/-- Drafts that are the same up to the signatures get the same gas. -/
theorem gas_eq {draft draft' : CTransaction} {n : ℕ} {gas gas' : UInt64}
    (hdraft : draft.unsigned = draft'.unsigned) (h : env.generateGas draft n = some gas)
    (h' : env.generateGas draft' n = some gas') : gas = gas' := by
  rw [hgas, hdraft, ← hgas] at h
  exact Option.some.inj (h.symm.trans h')

/-- From drafts that are the same up to the signatures, gas and outputs give transactions that are. -/
theorem filled_unsigned {code code' code'' : ℤ} {draft draft' tx tx' signed : CTransaction} {n : ℕ}
    {gas gas' : UInt64} {payments : List (Str × Int64)} {changeAddr : Str} {total expend : UInt64}
    {owners : List Str} (hdraft : draft.unsigned = draft'.unsigned)
    (hg : env.generateGas draft n = some gas) (hg' : env.generateGas draft' n = some gas')
    (hfill : fillVouts env.toTxEnv code draft payments changeAddr total expend gas = .ok tx)
    (hfill' : fillVouts env.toTxEnv code' draft' payments changeAddr total expend gas' = .ok tx')
    (hsign : addMutilSigns env.toTxEnv code'' owners tx = .ok signed) :
    signed.unsigned = tx'.unsigned := by
  obtain rfl := gas_eq hgas hdraft hg hg'
  rw [addMutilSigns_unsigned owners hsign, fillVouts_unsigned hfill, fillVouts_unsigned hfill', hdraft]

omit hgas in
/-- The last fields are the same on both sides. -/
theorem stamp_content {tx tx' : CTransaction} (h : tx.unsigned = tx'.unsigned) (time time' : UInt64)
    (txType : UInt32) (identity identity' : Str) :
    (stampTx env.toTxEnv tx time txType identity).content =
      (stampRpcTx env.toTxEnv tx' time' txType identity').content :=
  congrArg (fun u : CTransaction => { u with
    version := env.kCurrentTransactionVersion, time := 0, consensus := env.kConsensus, txType := txType
    identity := [], hash := [] }) h

section Args
variable {encodedInfo : Str} {height : UInt64} {isFindUtxo : Bool} {r : CTransaction × VrfAgentType}
  {ack : TxAck}

theorem tx_content {fromAddr : List Str} {toAddr : Recipients} {pending pending' : StdMap Str DoubleSpendsuc}
    {r : CTransaction × VrfAgentType × StdMap Str DoubleSpendsuc} {ack : TxAck × StdMap Str DoubleSpendsuc}
    (h : createTxTransaction env.toTxEnv fromAddr toAddr encodedInfo height isFindUtxo pending = .ok r)
    (h' : replaceCreateTxTransaction env fromAddr toAddr isFindUtxo encodedInfo pending' = .ok ack) :
    r.1.content = ack.1.tx.content := by
  obtain ⟨found, draft, gas, tx, signed, chosen, hfound, hdraft, hg, hfill, hsign, -, -, hr, -⟩ :=
    createTxTransaction_inv h
  obtain ⟨found', gas', tx', identity, hfound', hg', hfill', hr', -⟩ := replaceCreateTxTransaction_inv h'
  obtain rfl := Except.ok.inj (hfound.symm.trans hfound')
  rw [hr, hr']
  exact stamp_content (filled_unsigned hgas (draftTx_unsigned hdraft) hg hg' hfill hfill' hsign) ..

theorem stake_content {fromAddr : Str} {stakeAmount : UInt64} {pledgeType : PledgeType}
    {commissionRate : UInt64}
    (h : createStakeTransaction env.toTxEnv fromAddr stakeAmount encodedInfo height pledgeType
      commissionRate isFindUtxo = .ok r)
    (h' : replaceCreateStakeTransaction env fromAddr stakeAmount pledgeType commissionRate isFindUtxo
      encodedInfo = .ok ack) :
    r.1.content = ack.tx.content := by
  obtain ⟨found, draft, gas, tx, signed, identity, hfound, hdraft, hg, hfill, hsign, -, -, hr⟩ :=
    createStakeTransaction_inv h
  obtain ⟨found', gas', tx', identity', hfound', hg', hfill', hr'⟩ := replaceCreateStakeTransaction_inv h'
  obtain rfl := Except.ok.inj (hfound.symm.trans hfound')
  rw [hr, hr']
  exact stamp_content (filled_unsigned hgas (draftTx_unsigned hdraft) hg hg' hfill hfill' hsign) ..

theorem invest_content {fromAddr toAddr : Str} {investAmount : UInt64} {investType : InvestType}
    (h : createInvestTransaction env.toTxEnv fromAddr toAddr investAmount encodedInfo height investType
      isFindUtxo = .ok r)
    (h' : replaceCreateInvestTransaction env fromAddr toAddr investAmount investType isFindUtxo
      encodedInfo = .ok ack) :
    r.1.content = ack.tx.content := by
  obtain ⟨found, draft, gas, tx, signed, identity, hfound, hdraft, hg, hfill, hsign, -, -, hr⟩ :=
    createInvestTransaction_inv h
  obtain ⟨found', gas', tx', identity', hfound', hg', hfill', hr'⟩ := replaceCreateInvestTransaction_inv h'
  obtain rfl := Except.ok.inj (hfound.symm.trans hfound')
  rw [hr, hr']
  exact stamp_content (filled_unsigned hgas (draftTx_unsigned hdraft) hg hg' hfill hfill' hsign) ..

theorem unstake_content {fromAddr utxoHash : Str}
    (h : creatUnstakeTransaction env.toBuilderEnv fromAddr utxoHash encodedInfo height isFindUtxo = .ok r)
    (h' : replaceCreatUnstakeTransaction env fromAddr utxoHash isFindUtxo encodedInfo = .ok ack) :
    r.1.content = ack.tx.content := by
  obtain ⟨found, held, txUtxo, gas, tx, signed, identity, hfound, hheld, hvins, hg, hfill, hsign, -, -, hr⟩ :=
    creatUnstakeTransaction_inv h
  obtain ⟨found', gas', tx', identity', hfound', hg', hfill', hr'⟩ := replaceCreatUnstakeTransaction_inv h'
  obtain rfl := Except.ok.inj (hfound.symm.trans hfound')
  have hutxo := signVins_unsigned _ hvins (signRedeemVin_unsigned hheld)
  rw [hr, hr']
  refine stamp_content (filled_unsigned hgas ?_ hg hg' hfill hfill' hsign) ..
  simp only [CTransaction.unsigned, rpcDraft, hutxo]

theorem disinvest_content {fromAddr toAddr utxoHash : Str}
    (h : createDisinvestTransaction env.toBuilderEnv fromAddr toAddr utxoHash encodedInfo height isFindUtxo
      = .ok r)
    (h' : replaceCreateDisinvestTransaction env fromAddr toAddr utxoHash isFindUtxo encodedInfo = .ok ack) :
    r.1.content = ack.tx.content := by
  obtain ⟨found, held, txUtxo, gas, tx, signed, identity, hfound, hheld, hvins, hg, hfill, hsign, -, -, hr⟩ :=
    createDisinvestTransaction_inv h
  obtain ⟨found', gas', tx', identity', hfound', hg', hfill', hr'⟩ :=
    replaceCreateDisinvestTransaction_inv h'
  obtain rfl := Except.ok.inj (hfound.symm.trans hfound')
  have hutxo := signVins_unsigned _ hvins (signRedeemVin_unsigned hheld)
  rw [hr, hr']
  refine stamp_content (filled_unsigned hgas ?_ hg hg' hfill hfill' hsign) ..
  simp only [CTransaction.unsigned, rpcDraft, hutxo]

theorem bonus_content {addr : Str}
    (h : createBonusTransaction env.toBuilderEnv addr encodedInfo height isFindUtxo = .ok r)
    (h' : replaceCreateBonusTransaction env addr isFindUtxo encodedInfo = .ok ack) :
    r.1.content = ack.tx.content := by
  obtain ⟨found, txUtxo, rate, gas, tx, signed, identity, hfound, hvins, hrate, hg, hfill, hsign, -, -, hr⟩ :=
    createBonusTransaction_inv h
  obtain ⟨found', rate', gas', tx', identity', hfound', hrate', hg', hfill', hr'⟩ :=
    replaceCreateBonusTransaction_inv h'
  obtain rfl := Except.ok.inj (hfound.symm.trans hfound')
  obtain rfl := Except.ok.inj (hrate.symm.trans hrate')
  have hutxo := signVins_unsigned (v := .cleared) _ hvins rfl
  have hdraft : (bonusDraft env.toBuilderEnv txUtxo
      (env.calcBonusValue (env.getUTCTimestamp 0) addr).2 rate encodedInfo).unsigned =
      (bonusDraft env.toBuilderEnv (fillVins (fun _ => 0) found.2 (txOwners found.2) 0 .cleared)
        (env.calcBonusValue (env.getUTCTimestamp 0) addr).2 rate encodedInfo).unsigned := by
    simp only [CTransaction.unsigned, bonusDraft, hutxo]
  obtain rfl := gas_eq hgas hdraft hg hg'
  have hfilled : tx.unsigned = tx'.unsigned := by
    rw [fillBonusVouts_unsigned hfill, fillBonusVouts_unsigned hfill', hdraft]
  rw [hr, hr']
  have hsigned : signed.unsigned = { tx.unsigned with
      time := env.getUTCTimestamp 1, version := env.kCurrentTransactionVersion
      consensus := env.kConsensus, txType := 99 } := addMutilSigns_unsigned _ hsign
  rw [hfilled] at hsigned
  exact congrArg (fun u : CTransaction => { u with time := 0, identity := [], hash := [] }) hsigned

end Args

end Kinds

/-! ### All six kinds -/

/-- The RPC builder for the arguments. -/
def replaceCreate (env : RpcEnv) (encodedInfo : Str) (isFindUtxo : Bool)
    (pending : StdMap Str DoubleSpendsuc) : BuilderArgs → Except RpcExit TxAck
  | .tx fromAddr toAddr =>
    (replaceCreateTxTransaction env fromAddr toAddr isFindUtxo encodedInfo pending).map Prod.fst
  | .stake fromAddr stakeAmount pledgeType commissionRate =>
    replaceCreateStakeTransaction env fromAddr stakeAmount pledgeType commissionRate isFindUtxo encodedInfo
  | .unstake fromAddr utxoHash =>
    replaceCreatUnstakeTransaction env fromAddr utxoHash isFindUtxo encodedInfo
  | .invest fromAddr toAddr investAmount investType =>
    replaceCreateInvestTransaction env fromAddr toAddr investAmount investType isFindUtxo encodedInfo
  | .disinvest fromAddr toAddr utxoHash =>
    replaceCreateDisinvestTransaction env fromAddr toAddr utxoHash isFindUtxo encodedInfo
  | .bonus addr => replaceCreateBonusTransaction env addr isFindUtxo encodedInfo

/-- Whenever the node's builder and the RPC builder both succeed on the same arguments, their
    transactions differ at most in the signatures, the time, the identity and the hash. -/
theorem builders_same_content (env : RpcEnv) (hgas : GasIgnoresSigns env.toTxEnv) (args : BuilderArgs)
    (encodedInfo : Str) (height : UInt64) (isFindUtxo : Bool) (pending pending' : StdMap Str DoubleSpendsuc)
    (r : CTransaction × VrfAgentType) (ack : TxAck)
    (h : args.create env.toBuilderEnv encodedInfo height isFindUtxo pending = .ok r)
    (h' : replaceCreate env encodedInfo isFindUtxo pending' args = .ok ack) :
    r.1.content = ack.tx.content := by
  cases args with
  | tx fromAddr toAddr =>
    obtain ⟨r, hr, rfl⟩ := map_eq_ok.mp h
    obtain ⟨ack, hack, rfl⟩ := map_eq_ok.mp h'
    exact tx_content hgas hr hack
  | stake fromAddr stakeAmount pledgeType commissionRate => exact stake_content hgas h h'
  | unstake fromAddr utxoHash => exact unstake_content hgas h h'
  | invest fromAddr toAddr investAmount investType => exact invest_content hgas h h'
  | disinvest fromAddr toAddr utxoHash => exact disinvest_content hgas h h'
  | bonus addr => exact bonus_content hgas h h'

/-- The node of `builderEnv`, with 2000 staked and 3000 invested by `A`, whose investor `I` has earned
    100; the commission is a twentieth. -/
def rpcBuilderEnv : RpcEnv where
  toTxEnv := builderEnv
  isQualifiedToUnstake := fun _ _ => (0, 2000)
  isQualifiedToDisinvest := fun _ _ _ => (0, 3000)
  checkBonusQualification := fun _ _ => 0
  calcBonusValue := fun _ _ => (0, ⟨[(str "I", 100)], by simp⟩)
  getCommissionPercentage := fun _ => .ok 0x3FA999999999999A
  costoOf := fun amount _ => (amount * 5 + 50) / 100
  dumpRedeem := fun _ => []
  getDefaultAddr := str "N"
  getBlockTop := some 7
  kMinStakeAmt := 1000
  commissionInRange := fun _ => true
  rpcErrorCode := some 0
  rpcErrorText := ""

/-- One call of each kind. -/
def sampleArgs : List BuilderArgs :=
  [.tx [str "A"] toB, .stake (str "A") 2000 .node 0x3FA999999999999A, .unstake (str "A") (str "s"),
    .invest (str "A") (str "B") 2000 .netLicence, .disinvest (str "A") (str "B") (str "i"), .bonus (str "A")]

/-- All twelve builders succeed on the sample node, and agree. -/
theorem builders_same_content_sample : sampleArgs.Forall fun args => ∃ r ack,
    args.create rpcBuilderEnv.toBuilderEnv [] 8 false .empty = .ok r ∧
      replaceCreate rpcBuilderEnv [] false .empty args = .ok ack ∧ r.1.content = ack.tx.content := by
  have hall : ∀ args ∈ sampleArgs,
      (args.create rpcBuilderEnv.toBuilderEnv [] 8 false .empty).toOption.map (fun _ => ()) = some () ∧
        (replaceCreate rpcBuilderEnv [] false .empty args).toOption.map (fun _ => ()) = some () := by
    decide
  refine List.forall_iff_forall_mem.mpr fun args hargs => ?_
  obtain ⟨r, hr, -⟩ := ok_of_eval (hall args hargs).1
  obtain ⟨ack, hack, -⟩ := ok_of_eval (hall args hargs).2
  exact ⟨r, ack, hr, hack, builders_same_content rpcBuilderEnv (fun _ _ => rfl) args [] 8 false .empty .empty
    r ack hr hack⟩

end Tfs.Api
